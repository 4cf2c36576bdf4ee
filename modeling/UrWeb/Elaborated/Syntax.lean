import UrWeb.Primitives

/-!
# Elaborated syntax

Kinds, constructors, patterns, expressions, signatures, structures and
declarations as type inference leaves them. A unification cell holds what it
has been solved to, if anything; module projections name a structure id and a
path. Source spans, the scopes of unknown cells and foreign-function modes are
left out.
-/

namespace UrWeb.Elaborated

mutual
inductive Kind where
  | typed (head : TypeHead)
  | star
  | arrow (dom ran : Kind)
  | name
  | record (k : Kind)
  | unit
  | tuple (ks : List Kind)
  | kFun (body : Kind)
  | unif (x : String) (cell : KUnif)
  | tupleUnif (members : List (Nat × Kind)) (cell : KUnif)
  | rel (n : Nat)
inductive TypeHead where
  | function (dom ran : Kind)
  | error (descriptor : List UInt8)
  | string | int | uint | number | bool | float | char | unit | time | blob
  | stringArray | intArray | uintArray | numberArray | boolArray | floatArray | charArray
  | timeArray | blobArray | functionArray | errorArray
inductive KUnif where
  | unknown
  | known (k : Kind)
end

inductive Explicitness
  | explicit
  | implicit

mutual
inductive Constructor where
  | tFun (dom ran : Constructor)
  | tCFun (ex : Explicitness) (x : String) (k : Kind) (body : Constructor)
  | tRecord (row : Constructor)
  | tDisjoint (c1 c2 body : Constructor)
  | rel (n : Nat)
  | named (n : Nat)
  | modProj (n : Nat) (path : List String) (x : String)
  | app (c1 c2 : Constructor)
  | abs (x : String) (k : Kind) (body : Constructor)
  | kAbs (x : String) (body : Constructor)
  | kApp (c : Constructor) (k : Kind)
  | tKFun (x : String) (body : Constructor)
  | name (s : String)
  | record (k : Kind) (fields : List (Constructor × Constructor))
  | concat (c1 c2 : Constructor)
  | map (k1 k2 : Kind)
  | unit
  | tuple (cs : List Constructor)
  | proj (c : Constructor) (n : Nat)
  | error
  | unif (depth : Nat) (k : Kind) (x : String) (cell : CUnif)
  | enum (arms : List (String × List Constructor))
inductive CUnif where
  | unknown
  | known (c : Constructor)
end

inductive PatternConstructor where
  | var (n : Nat)
  | proj (n : Nat) (path : List String) (x : String)

inductive Pattern where
  | var (x : String) (t : Constructor)
  | prim (p : Prim)
  | constructor (dk : DatatypeKind) (pc : PatternConstructor) (args : List Constructor)
      (sub : Option Pattern)
  | record (fields : List (String × Pattern × Constructor))

structure FieldMeta where
  field : Constructor
  rest : Constructor

structure RestMeta where
  rest : Constructor

structure CaseMeta where
  disc : Constructor
  result : Constructor

mutual
inductive Expression where
  | prim (p : Prim)
  | rel (n : Nat)
  | named (n : Nat)
  | modProj (n : Nat) (path : List String) (x : String)
  | app (e1 e2 : Expression)
  | abs (x : String) (dom ran : Constructor) (body : Expression)
  | cApp (e : Expression) (c : Constructor)
  | cAbs (ex : Explicitness) (x : String) (k : Kind) (body : Expression)
  | kAbs (x : String) (body : Expression)
  | kApp (e : Expression) (k : Kind)
  | record (fields : List (Constructor × Expression × Constructor))
  | field (e : Expression) (c : Constructor) (info : FieldMeta)
  | concat (e1 : Expression) (c1 : Constructor) (e2 : Expression) (c2 : Constructor)
  | cut (e : Expression) (c : Constructor) (info : FieldMeta)
  | cutMulti (e : Expression) (c : Constructor) (info : RestMeta)
  | case (disc : Expression) (arms : List (Pattern × Expression)) (info : CaseMeta)
  | error
  | unif (cell : Option Expression)
  | hole (cell : CUnif)
  | letIn (decls : List ElaboratedDeclaration) (body : Expression) (t : Constructor)
inductive ElaboratedDeclaration where
  | val (p : Pattern) (t : Constructor) (e : Expression)
  | valRec (vis : List (String × Constructor × Expression))
end

structure DatatypeDecl where
  name : String
  id : Nat
  params : List String
  constrs : List (String × Nat × Option Constructor)

/-- A datatype re-exported from the module `origMod`. -/
structure DatatypeImp where
  name : String
  id : Nat
  params : List String
  origMod : Nat
  origPath : List String
  origName : String
  origConstrsPath : List String
  constrs : List (String × Nat × Option Constructor)

inductive ImportMode
  | import
  | skip

mutual
inductive SignatureItem where
  | conAbs (x : String) (id : Nat) (k : Kind)
  | constructor (x : String) (id : Nat) (k : Kind) (c : Constructor)
  | datatype (dts : List DatatypeDecl)
  | datatypeImp (imp : DatatypeImp)
  | val (x : String) (id : Nat) (t : Constructor)
  | structure (mode : ImportMode) (x : String) (id : Nat) (s : Signature)
  | signature (x : String) (id : Nat) (s : Signature)
  | constraint (c1 c2 : Constructor)
  | classAbs (x : String) (id : Nat) (k : Kind)
  | class (x : String) (id : Nat) (k : Kind) (c : Constructor)
inductive Signature where
  | const (items : List SignatureItem)
  | var (n : Nat)
  | func (x : String) (id : Nat) (dom ran : Signature)
  | where (s : Signature) (path : List String) (x : String) (c : Constructor)
  | proj (n : Nat) (path : List String) (x : String)
  | error
end

/-- What a table declares: the module that declares the type of tables, its name and
id, and its columns, key and constraints. -/
structure TableDecl where
  modId : Nat
  name : String
  nameId : Nat
  con : Constructor
  exp : Expression
  pkCon : Constructor
  pkExp : Expression
  uniqueCon : Constructor

mutual
inductive Declaration where
  | constructor (x : String) (id : Nat) (k : Kind) (c : Constructor)
  | datatype (dts : List DatatypeDecl)
  | datatypeImp (imp : DatatypeImp)
  | val (x : String) (id : Nat) (t : Constructor) (e : Expression)
  | valRec (vis : List (String × Nat × Constructor × Expression))
  | signature (x : String) (id : Nat) (s : Signature)
  | structure (x : String) (id : Nat) (s : Signature) (st : Structure)
  | ffiStr (x : String) (id : Nat) (s : Signature)
  | constraint (c1 c2 : Constructor)
  | export (id : Nat) (s : Signature) (st : Structure)
  | table (td : TableDecl)
  | sequence (modId : Nat) (x : String) (id : Nat)
  | view (modId : Nat) (x : String) (id : Nat) (e : Expression) (c : Constructor)
  | index (e1 e2 : Expression)
  | database (s : String)
  | cookie (modId : Nat) (x : String) (id : Nat) (t : Constructor)
  | style (modId : Nat) (x : String) (id : Nat)
  | task (e1 e2 : Expression)
  | policy (e : Expression)
  | onError (n : Nat) (path : List String) (x : String)
  | ffi (x : String) (id : Nat) (t : Constructor)
inductive Structure where
  | const (ds : List Declaration)
  | var (n : Nat)
  | proj (st : Structure) (x : String)
  | func (x : String) (id : Nat) (dom ran : Signature) (body : Structure)
  | app (st1 st2 : Structure)
  | error
end

abbrev File := List Declaration

end UrWeb.Elaborated
