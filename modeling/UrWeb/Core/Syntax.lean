import UrWeb.Primitives

/-!
# Core syntax

Kinds, constructors, patterns, expressions and declarations of the
intermediate representation between elaboration and monomorphisation. Names
are globally unique numbers; bound variables are de Bruijn indices. Source
spans are left out.
-/

namespace UrWeb.Core

inductive Kind where
  | type
  | arrow (dom ran : Kind)
  | name
  | record (k : Kind)
  | unit
  | tuple (ks : List Kind)
  | rel (n : Nat)
  | func (x : String) (body : Kind)

/-- Types and type-level computation. -/
inductive Constructor where
  | tFun (dom ran : Constructor)
  | tCFun (x : String) (k : Kind) (body : Constructor)
  | tRecord (row : Constructor)
  | rel (n : Nat)
  | named (n : Nat)
  | ffi (m x : String)
  | app (c1 c2 : Constructor)
  | abs (x : String) (k : Kind) (body : Constructor)
  | kAbs (x : String) (body : Constructor)
  | kApp (c : Constructor) (k : Kind)
  | tKFun (x : String) (body : Constructor)
  | name (s : String)
  | record (k : Kind) (fields : List (Constructor × Constructor))
  | concat (c1 c2 : Constructor)
  | map (k1 k2 : Kind)
  | unit
  | tuple (cs : List Constructor)
  | proj (c : Constructor) (n : Nat)

inductive PatternConstructor where
  | var (n : Nat)
  | ffi (m datatyp : String) (params : List String) (con : String) (arg : Option Constructor)
      (kind : DatatypeKind)

inductive Pattern where
  | var (x : String) (t : Constructor)
  | prim (p : Prim)
  | constructor (dk : DatatypeKind) (pc : PatternConstructor) (args : List Constructor)
      (sub : Option Pattern)
  | record (fields : List (String × Pattern × Constructor))

structure FieldMeta where
  field : Constructor
  rest : Constructor

structure RestMeta where
  rest : Constructor

structure CaseMeta where
  disc : Constructor
  result : Constructor

inductive Expression where
  | prim (p : Prim)
  | rel (n : Nat)
  | named (n : Nat)
  | constructor (dk : DatatypeKind) (pc : PatternConstructor) (args : List Constructor)
      (payload : Option Expression)
  | ffi (m x : String)
  | ffiApp (m x : String) (args : List (Expression × Constructor))
  | app (e1 e2 : Expression)
  | abs (x : String) (dom ran : Constructor) (body : Expression)
  | cApp (e : Expression) (c : Constructor)
  | cAbs (x : String) (k : Kind) (body : Expression)
  | kAbs (x : String) (body : Expression)
  | kApp (e : Expression) (k : Kind)
  | record (fields : List (Constructor × Expression × Constructor))
  | field (e : Expression) (c : Constructor) (info : FieldMeta)
  | concat (e1 : Expression) (c1 : Constructor) (e2 : Expression) (c2 : Constructor)
  | cut (e : Expression) (c : Constructor) (info : FieldMeta)
  | cutMulti (e : Expression) (c : Constructor) (info : RestMeta)
  | case (disc : Expression) (arms : List (Pattern × Expression)) (info : CaseMeta)
  | write (e : Expression)
  | closure (n : Nat) (captured : List Expression)
  | letIn (x : String) (t : Constructor) (e1 e2 : Expression)
  | serverCall (n : Nat) (args : List Expression) (result : Constructor) (fm : FailureMode)

structure DatatypeDecl where
  name : String
  id : Nat
  params : List String
  constrs : List (String × Nat × Option Constructor)

/-- One binding of a `val` or of a `val rec` group:
name, id, type, body and the path it is reported under. -/
structure ValBinding where
  x : String
  id : Nat
  t : Constructor
  body : Expression
  s : String

/-- What a table declares besides its id: names, column, key and constraint types,
and the expressions for the key and for the constraints. -/
structure TableDecl where
  sqlName : String
  id : Nat
  con : Constructor
  sqlCon : String
  exp : Expression
  pkCon : Constructor
  pkExp : Expression
  uniqueCon : Constructor

inductive Declaration where
  | constructor (x : String) (id : Nat) (k : Kind) (body : Constructor)
  | datatype (dts : List DatatypeDecl)
  | val (vi : ValBinding)
  | valRec (vis : List ValBinding)
  | export (ek : ExportKind) (id : Nat) (hasState : Bool)
  | table (td : TableDecl)
  | sequence (x : String) (id : Nat) (s : String)
  | view (x : String) (id : Nat) (s : String) (exp : Expression) (con : Constructor)
  | index (e1 e2 : Expression)
  | database (s : String)
  | cookie (x : String) (id : Nat) (t : Constructor) (s : String)
  | style (x : String) (id : Nat) (s : String)
  | task (e1 e2 : Expression)
  | policy (e : Expression)
  | onError (id : Nat)

abbrev File := List Declaration

-- ---------------------------------------------------------------------------
-- Induction principles
-- ---------------------------------------------------------------------------

/-- Induction over a constructor, with fields and members reached by membership. -/
@[induction_eliminator]
theorem Constructor.induct {P : Constructor → Prop}
    (tFun : ∀ dom ran, P dom → P ran → P (.tFun dom ran))
    (tCFun : ∀ x k body, P body → P (.tCFun x k body))
    (tRecord : ∀ row, P row → P (.tRecord row))
    (rel : ∀ n, P (.rel n))
    (named : ∀ n, P (.named n))
    (ffi : ∀ m x, P (.ffi m x))
    (app : ∀ c1 c2, P c1 → P c2 → P (.app c1 c2))
    (abs : ∀ x k body, P body → P (.abs x k body))
    (kAbs : ∀ x body, P body → P (.kAbs x body))
    (kApp : ∀ c k, P c → P (.kApp c k))
    (tKFun : ∀ x body, P body → P (.tKFun x body))
    (name : ∀ s, P (.name s))
    (record : ∀ k (fields : List (Constructor × Constructor)),
      (∀ f ∈ fields, P f.1 ∧ P f.2) → P (.record k fields))
    (concat : ∀ c1 c2, P c1 → P c2 → P (.concat c1 c2))
    (map : ∀ k1 k2, P (.map k1 k2))
    (unit : P .unit)
    (tuple : ∀ cs : List Constructor, (∀ c ∈ cs, P c) → P (.tuple cs))
    (proj : ∀ c n, P c → P (.proj c n)) (c : Constructor) : P c :=
  @Constructor.rec P (fun fields => ∀ f ∈ fields, P f.1 ∧ P f.2) (fun cs => ∀ c ∈ cs, P c)
    (fun f => P f.1 ∧ P f.2)
    tFun tCFun tRecord rel named ffi app abs kAbs kApp tKFun name record concat map unit tuple proj
    (by simp) (fun _ _ hf ih => List.forall_mem_cons.mpr ⟨hf, ih⟩)
    (by simp) (fun _ _ hc ih => List.forall_mem_cons.mpr ⟨hc, ih⟩)
    (fun _ _ h1 h2 => ⟨h1, h2⟩) c

/-- Induction over a pattern. -/
@[induction_eliminator]
theorem Pattern.induct {P : Pattern → Prop}
    (var : ∀ x t, P (.var x t))
    (prim : ∀ p, P (.prim p))
    (constructor : ∀ dk pc args (sub : Option Pattern), (∀ p ∈ sub, P p) →
      P (.constructor dk pc args sub))
    (record : ∀ fields : List (String × Pattern × Constructor), (∀ f ∈ fields, P f.2.1) →
      P (.record fields)) (p : Pattern) : P p :=
  @Pattern.rec P (fun sub => ∀ p ∈ sub, P p) (fun fields => ∀ f ∈ fields, P f.2.1)
    (fun f => P f.2.1) (fun f => P f.1)
    var prim constructor record
    (by simp) (by simp) (by simp) (fun _ _ hf ih => List.forall_mem_cons.mpr ⟨hf, ih⟩)
    (fun _ _ h => h) (fun _ _ h => h) p

/-- Induction over an expression: children in lists and options are reached by
membership. -/
@[induction_eliminator]
theorem Expression.induct {P : Expression → Prop}
    (prim : ∀ p, P (.prim p))
    (rel : ∀ n, P (.rel n))
    (named : ∀ n, P (.named n))
    (constructor : ∀ dk pc args (payload : Option Expression), (∀ e ∈ payload, P e) →
      P (.constructor dk pc args payload))
    (ffi : ∀ m x, P (.ffi m x))
    (ffiApp : ∀ m x (args : List (Expression × Constructor)), (∀ a ∈ args, P a.1) →
      P (.ffiApp m x args))
    (app : ∀ e1 e2, P e1 → P e2 → P (.app e1 e2))
    (abs : ∀ x dom ran body, P body → P (.abs x dom ran body))
    (cApp : ∀ e c, P e → P (.cApp e c))
    (cAbs : ∀ x k body, P body → P (.cAbs x k body))
    (kAbs : ∀ x body, P body → P (.kAbs x body))
    (kApp : ∀ e k, P e → P (.kApp e k))
    (record : ∀ fields : List (Constructor × Expression × Constructor), (∀ f ∈ fields, P f.2.1) →
      P (.record fields))
    (field : ∀ e c info, P e → P (.field e c info))
    (concat : ∀ e1 c1 e2 c2, P e1 → P e2 → P (.concat e1 c1 e2 c2))
    (cut : ∀ e c info, P e → P (.cut e c info))
    (cutMulti : ∀ e c info, P e → P (.cutMulti e c info))
    (case : ∀ disc (arms : List (Pattern × Expression)) info, P disc → (∀ a ∈ arms, P a.2) →
      P (.case disc arms info))
    (write : ∀ e, P e → P (.write e))
    (closure : ∀ n (captured : List Expression), (∀ e ∈ captured, P e) → P (.closure n captured))
    (letIn : ∀ x t e1 e2, P e1 → P e2 → P (.letIn x t e1 e2))
    (serverCall : ∀ n (args : List Expression) result fm, (∀ e ∈ args, P e) →
      P (.serverCall n args result fm)) (e : Expression) : P e :=
  @Expression.rec P (fun payload => ∀ e ∈ payload, P e) (fun args => ∀ a ∈ args, P a.1)
    (fun fields => ∀ f ∈ fields, P f.2.1) (fun arms => ∀ a ∈ arms, P a.2)
    (fun es => ∀ e ∈ es, P e)
    (fun a => P a.1) (fun f => P f.2.1) (fun a => P a.2)
    prim rel named constructor ffi ffiApp app abs cApp cAbs kAbs kApp record field concat cut
    cutMulti case write closure letIn serverCall
    (by simp) (by simp)
    (by simp) (fun _ _ ha ih => List.forall_mem_cons.mpr ⟨ha, ih⟩)
    (by simp) (fun _ _ hf ih => List.forall_mem_cons.mpr ⟨hf, ih⟩)
    (by simp) (fun _ _ ha ih => List.forall_mem_cons.mpr ⟨ha, ih⟩)
    (by simp) (fun _ _ he ih => List.forall_mem_cons.mpr ⟨he, ih⟩)
    (fun _ _ h => h) (fun _ _ h => h) (fun _ _ h => h) e

end UrWeb.Core
