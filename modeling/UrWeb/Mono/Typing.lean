import UrWeb.Mono.Syntax

/-!
# Typing of Mono expressions

The types that expressions have given those of the value ids and of the bound
variables. Foreign functions and operators have whatever types the signature
gives them; a pattern binds its variables at their annotations.
-/

namespace UrWeb.Mono

def Typ.string : Typ := .ffi "Basis" "string"
def Typ.int : Typ := .ffi "Basis" "int"
def Typ.unit : Typ := .record []

structure Signature where
  ffi : String → String → Typ → Prop
  ffiApp : String → String → List Typ → Typ → Prop
  unop : String → Typ → Typ → Prop
  binop : String → Typ → Typ → Typ → Prop

def primType : Prim → Typ
  | .int _ => .int
  | .float _ => .ffi "Basis" "float"
  | .string _ _ => .string
  | .char _ => .ffi "Basis" "char"

mutual
/-- The types of a pattern's variables, the last one first. -/
def Pat.extend : Pat → List Typ → List Typ
  | .var _ t, ctx => t :: ctx
  | .prim _, ctx | .none _, ctx => ctx
  | .con _ _ arg, ctx => Pat.argExtend arg ctx
  | .some _ p, ctx => p.extend ctx
  | .record fields, ctx => Pat.fieldExtend fields ctx
def Pat.argExtend : Option Pat → List Typ → List Typ
  | .none, ctx => ctx
  | .some p, ctx => p.extend ctx
def Pat.fieldExtend : List (String × Pat × Typ) → List Typ → List Typ
  | [], ctx => ctx
  | (_, p, _) :: fields, ctx => Pat.fieldExtend fields (p.extend ctx)
end

/-- The rows that a query's body gets. -/
def QueryTypes.row (qm : QueryTypes) : Typ :=
  .record (qm.exps ++ qm.tables.map fun x => (x.1, .record x.2))

/-- The value bindings of a declaration. -/
def Decl.bindings : Decl → List ValBinding
  | .val vi => [vi]
  | .valRec vis => vis
  | _ => []

def bindings (decls : List Decl) : List ValBinding := decls.flatMap Decl.bindings

def datatypes : Decl → List DatatypeDecl
  | .datatype dts => dts
  | _ => []

section
variable (S : Signature) (decls : List Decl)

/-- A constructor with the datatype it belongs to and its payload type. -/
inductive ConType : PatCon → Option Typ → Typ → Prop
  | var : d ∈ decls → dt ∈ datatypes d → (x, n, payload) ∈ dt.constrs →
      ConType (.var n) payload (.datatype dt.id)
  | ffi : ConType (.ffi m dt c payload) payload (.ffi m dt)

/-- Where the type of a part is not determined by the rest, `typ` gives it. -/
inductive HasType : List Typ → Exp → Typ → Prop
  | prim : HasType ctx (.prim p) (primType p)
  | rel : ctx[n]? = some t → HasType ctx (.rel n) t
  | named : vi ∈ bindings decls → HasType ctx (.named vi.n) vi.t
  | con {typ : Exp → Typ} : ConType decls pc payload t → (∀ e ∈ arg, payload = Option.some (typ e)) →
      (∀ e ∈ arg, HasType ctx e (typ e)) → HasType ctx (.con dk pc arg) t
  | none : HasType ctx (.none t) (.option t)
  | some : HasType ctx e t → HasType ctx (.some t e) (.option t)
  | ffi : S.ffi m x t → HasType ctx (.ffi m x) t
  | ffiApp : (∀ a ∈ args, HasType ctx a.1 a.2) → S.ffiApp m x (args.map Prod.snd) t →
      HasType ctx (.ffiApp m x args) t
  | app : HasType ctx e1 (.func dom ran) → HasType ctx e2 dom → HasType ctx (.app e1 e2) ran
  | abs : HasType (dom :: ctx) body ran → HasType ctx (.abs x dom ran body) (.func dom ran)
  | unop : HasType ctx e t → S.unop s t t' → HasType ctx (.unop s e) t'
  | binop : HasType ctx e1 t1 → HasType ctx e2 t2 → S.binop s t1 t2 t →
      HasType ctx (.binop bi s e1 e2) t
  | record : (∀ f ∈ xets, HasType ctx f.2.1 f.2.2) →
      HasType ctx (.record xets) (.record (xets.map fun f => (f.1, f.2.2)))
  | field : HasType ctx e (.record fields) → (x, t) ∈ fields → HasType ctx (.field e x) t
  | case : HasType ctx disc info.disc → (∀ a ∈ arms, HasType (a.1.extend ctx) a.2 info.result) →
      HasType ctx (.case disc arms info) info.result
  | strcat : HasType ctx e1 .string → HasType ctx e2 .string → HasType ctx (.strcat e1 e2) .string
  | error : HasType ctx e .string → HasType ctx (.error e t) t
  | returnBlob {typ : Exp → Typ} : (∀ e ∈ blob, HasType ctx e (typ e)) → HasType ctx mimeType .string →
      HasType ctx (.returnBlob blob mimeType t) t
  | redirect : HasType ctx e .string → HasType ctx (.redirect e t) t
  | write : HasType ctx e .string → HasType ctx (.write e) .unit
  | seq : HasType ctx e1 t1 → HasType ctx e2 t2 → HasType ctx (.seq e1 e2) t2
  | letIn : HasType ctx e1 t → HasType (t :: ctx) e2 t2 → HasType ctx (.letIn x t e1 e2) t2
  | closure {typ : Exp → Typ} : (∀ e ∈ envs, HasType ctx e (typ e)) →
      HasType ctx (.closure n envs) .string
  | query : HasType ctx q .string → HasType (qm.state :: qm.row :: ctx) body qm.state →
      HasType ctx initial qm.state → HasType ctx (.query qm q body initial) qm.state
  | dml : HasType ctx e .string → HasType ctx (.dml e fm) .unit
  | nextval : HasType ctx e .string → HasType ctx (.nextval e) .int
  | setval : HasType ctx e1 .string → HasType ctx e2 .int → HasType ctx (.setval e1 e2) .unit
  | uurlify : HasType ctx e .string → HasType ctx (.uurlify e t b) t
  | javaScript : HasType ctx e t → HasType ctx (.javaScript mode e) .string
  | signalReturn : HasType ctx e t → HasType ctx (.signalReturn e) (.signal t)
  | signalBind : HasType ctx e1 (.signal t1) → HasType ctx e2 (.func t1 (.signal t2)) →
      HasType ctx (.signalBind e1 e2) (.signal t2)
  | signalSource : HasType ctx e .source → HasType ctx (.signalSource e) (.signal t)
  | serverCall : HasType ctx e t' → HasType ctx (.serverCall e t eff fm) t
  | recv : HasType ctx e t' → HasType ctx (.recv e t) t
  | sleep : HasType ctx e .int → HasType ctx (.sleep e) .unit
  | spawn : HasType ctx e t → HasType ctx (.spawn e) .unit

/-- Every binding has its declared type. -/
def WellTyped : Prop := ∀ vi ∈ bindings decls, HasType S decls [] vi.e vi.t

end

end UrWeb.Mono
