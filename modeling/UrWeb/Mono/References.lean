import UrWeb.Mono.Syntax
import UrWeb.References

/-!
# References between declarations

What a type, a pattern, an expression or a declaration mentions: datatype ids
and value ids. This is the vocabulary in which a file is closed, meaning that
every id mentioned is one that is declared.
-/

namespace UrWeb.Mono

mutual
def Typ.refs : Typ → List Ref
  | .func dom ran => dom.refs ++ ran.refs
  | .record fields => Typ.fieldRefs fields
  | .datatype n => [.con n]
  | .ffi _ _ => []
  | .option t => t.refs
  | .list t => t.refs
  | .source => []
  | .signal t => t.refs
  | .transaction t => t.refs
def Typ.fieldRefs : List (String × Typ) → List Ref
  | [] => []
  | (_, t) :: fields => t.refs ++ Typ.fieldRefs fields
end

def PatCon.refs : PatCon → List Ref
  | .ffi _ _ _ (some t) => t.refs
  | _ => []

mutual
def Pat.refs : Pat → List Ref
  | .var _ t => t.refs
  | .prim _ => []
  | .con _ pc arg => pc.refs ++ Pat.argRefs arg
  | .record fields => Pat.fieldRefs fields
  | .none t => t.refs
  | .some t p => t.refs ++ p.refs
def Pat.argRefs : Option Pat → List Ref
  | .none => []
  | .some p => p.refs
def Pat.fieldRefs : List (String × Pat × Typ) → List Ref
  | [] => []
  | (_, p, t) :: fields => (p.refs ++ t.refs) ++ Pat.fieldRefs fields
end

def JavaScriptMode.refs : JavaScriptMode → List Ref
  | .source t => t.refs
  | _ => []

def QueryTypes.refs (qm : QueryTypes) : List Ref :=
  Typ.fieldRefs qm.exps ++ (qm.tables.flatMap fun x => Typ.fieldRefs x.2) ++ qm.state.refs

mutual
def Exp.refs : Exp → List Ref
  | .prim _ | .rel _ | .ffi _ _ => []
  | .named n => [.exp n]
  | .con _ pc arg => pc.refs ++ Exp.optRefs arg
  | .none t => t.refs
  | .some t e => t.refs ++ e.refs
  | .ffiApp _ _ args => Exp.argRefs args
  | .app e1 e2 | .binop _ _ e1 e2 | .strcat e1 e2 | .seq e1 e2 | .signalBind e1 e2
  | .setval e1 e2 => e1.refs ++ e2.refs
  | .abs _ dom ran body => dom.refs ++ ran.refs ++ body.refs
  | .unop _ e | .field e _ | .write e | .signalReturn e | .signalSource e | .sleep e | .spawn e
  | .nextval e | .dml e _ => e.refs
  | .record xets => Exp.fieldRefs xets
  | .case disc arms info =>
    disc.refs ++ Exp.armRefs arms ++ info.disc.refs ++ info.result.refs
  | .error e t | .redirect e t | .uurlify e t _ | .serverCall e t _ _ | .recv e t =>
    e.refs ++ t.refs
  | .returnBlob blob mimeType t => Exp.optRefs blob ++ mimeType.refs ++ t.refs
  | .letIn _ t e1 e2 => t.refs ++ e1.refs ++ e2.refs
  | .closure _ envs => Exp.listRefs envs
  | .query qm q body initial => qm.refs ++ q.refs ++ body.refs ++ initial.refs
  | .javaScript mode e => mode.refs ++ e.refs
def Exp.optRefs : Option Exp → List Ref
  | .none => []
  | .some e => e.refs
def Exp.argRefs : List (Exp × Typ) → List Ref
  | [] => []
  | (e, t) :: args => (e.refs ++ t.refs) ++ Exp.argRefs args
def Exp.fieldRefs : List (String × Exp × Typ) → List Ref
  | [] => []
  | (_, e, t) :: xets => (e.refs ++ t.refs) ++ Exp.fieldRefs xets
def Exp.armRefs : List (Pat × Exp) → List Ref
  | [] => []
  | (p, e) :: arms => (p.refs ++ e.refs) ++ Exp.armRefs arms
def Exp.listRefs : List Exp → List Ref
  | [] => []
  | e :: es => e.refs ++ Exp.listRefs es
end

/-- The payload types of a datatype. -/
def constrRefs (xncs : List (String × Nat × Option Typ)) : List Ref :=
  xncs.flatMap fun xnc => (xnc.2.2.map Typ.refs).getD []

def DatatypeDecl.refs (dt : DatatypeDecl) : List Ref := constrRefs dt.constrs

def ValBinding.refs (vi : ValBinding) : List Ref := vi.t.refs ++ vi.e.refs

/-- Everything a declaration mentions, the ids of an export, of an error
handler and of a database included. -/
def Decl.refs : Decl → List Ref
  | .datatype dts => dts.flatMap DatatypeDecl.refs
  | .val vi => vi.refs
  | .valRec vis => vis.flatMap ValBinding.refs
  | .export _ _ n ts t _ => .exp n :: (ts.flatMap Typ.refs ++ t.refs)
  | .table _ xts pe ce => Typ.fieldRefs xts ++ pe.refs ++ ce.refs
  | .view _ xts e => Typ.fieldRefs xts ++ e.refs
  | .database _ expunge initial _ => [.exp expunge, .exp initial]
  | .task e1 e2 => e1.refs ++ e2.refs
  | .policy p => p.exp.refs
  | .onError n => [.exp n]
  | .sequence _ | .index _ _ | .javaScript _ | .cookie _ | .style _ => []

/-- The ids a declaration defines. -/
def Decl.defines : Decl → List Ref
  | .datatype dts => dts.map fun dt => .con dt.id
  | .val vi => [.exp vi.n]
  | .valRec vis => vis.map fun vi => .exp vi.n
  | _ => []

/-- Every id a declaration mentions is defined by some declaration. -/
def RefsClosed (decls : List Decl) : Prop :=
  ∀ d ∈ decls, ∀ r ∈ d.refs, ∃ d' ∈ decls, r ∈ d'.defines

instance (decls : List Decl) : Decidable (RefsClosed decls) := by
  unfold RefsClosed; infer_instance

end UrWeb.Mono
