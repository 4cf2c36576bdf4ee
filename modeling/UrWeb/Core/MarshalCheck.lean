import Mathlib.Data.Finset.Sort
import Mathlib.Data.Prod.Lex
import Mathlib.Data.String.Basic
import Mathlib.Logic.Function.Basic
import UrWeb.Core.Utilities
import UrWeb.Settings

/-!
# The marshalling check

Which types may cross from the client to the server: for each named type the
check remembers the forbidden foreign types in it, declaration by declaration,
and reports handlers, cookies and serialisations that mention one.
-/

namespace UrWeb.Core.MarshalCheck

/-- The forbidden foreign types reachable through each named type. -/
abbrev CMap := Nat → Option (Finset Ffi)

/-- The type and the path of each named value. -/
abbrev EMap := Nat → Option (Constructor × String)

inductive DiagnosticId
  | serializationExcludedTypes
  | hintSerializationExcludedTypes
  | exportNamesUndefinedValue
  | hintExportNamesUndefinedValue
  | exportedHandlerUnsafeTypes
  | hintExportedHandlerUnsafeTypes
  | cookieStoresUnmarshallableTypes
  | hintCookieStoresUnmarshallableTypes
  deriving DecidableEq, Repr

structure Report where
  id : DiagnosticId
  args : List String
  hint : DiagnosticId
  deriving DecidableEq, Repr

section
variable (settings : Settings)

section
variable (cmap : CMap)

def sinsVisit (c : Constructor) (s : Finset Ffi) : Finset Ffi :=
  match c with
  | .ffi m x => if settings.mayClientToServer (m, x) then s else insert (m, x) s
  | .named n => match cmap n with
    | some sinSet => s ∪ sinSet
    | none => s
  | _ => s

def sins (con : Constructor) : Finset Ffi := con.fold (sinsVisit settings cmap) ∅

def sinsToString (s : Finset Ffi) : String :=
  match ((s.image toLex).sort (· ≤ ·)).map fun mx => (ofLex mx).1 ++ "." ++ (ofLex mx).2 with
  | [] => "{}"
  | [one] => one
  | items => ", ".intercalate items

def isExemptInput : Constructor → Bool
  | .ffi m x => m = "Basis" ∧ x = "postBody"
  | .app (.ffi m x) (.ffi m' x') => m = "Basis" ∧ x = "option" ∧ m' = "Basis" ∧ x' = "queryString"
  | _ => false

/-- The forbidden types among a handler's arguments. -/
def makeS : Constructor → Finset Ffi
  | .tFun dom ran => (if isExemptInput dom then ∅ else sins settings cmap dom) ∪ makeS ran
  | _ => ∅

def isSerializer (m x : String) : Bool := m = "Basis" ∧ (x = "serialize" ∨ x = "deserialize")

/-- What is reported when a type is applied to a function. -/
def checkInstance (f : Expression) (t : Constructor) (errors : List Report) : List Report :=
  match f with
  | .ffi m x =>
    let s := sins settings cmap t
    if isSerializer m x ∧ s ≠ ∅ then
      errors ++ [⟨.serializationExcludedTypes, [sinsToString s], .hintSerializationExcludedTypes⟩]
    else errors
  | _ => errors

mutual
def walkExpression (errors : List Report) : Expression → List Report
  | .cApp f t => walkExpression (checkInstance settings cmap f t errors) f
  | .app e1 e2 | .letIn _ _ e1 e2 | .concat e1 _ e2 _ => walkExpression (walkExpression errors e1) e2
  | .abs _ _ _ e | .cAbs _ _ e | .kAbs _ e | .kApp e _ | .write e | .field e _ _ | .cut e _ _
  | .cutMulti e _ _ => walkExpression errors e
  | .case disc arms _ => walkArms (walkExpression errors disc) arms
  | .record fields => walkFields errors fields
  | .ffiApp _ _ args => walkArgs errors args
  | .constructor _ _ _ payload => walkPayload errors payload
  | .serverCall _ es _ _ | .closure _ es => walkList errors es
  | .prim _ | .rel _ | .named _ | .ffi _ _ => errors
def walkPayload (errors : List Report) : Option Expression → List Report
  | none => errors
  | some e => walkExpression errors e
def walkArgs (errors : List Report) : List (Expression × Constructor) → List Report
  | [] => errors
  | (e, _) :: args => walkArgs (walkExpression errors e) args
def walkFields (errors : List Report) : List (Constructor × Expression × Constructor) → List Report
  | [] => errors
  | (_, e, _) :: fields => walkFields (walkExpression errors e) fields
def walkArms (errors : List Report) : List (Pattern × Expression) → List Report
  | [] => errors
  | (_, e) :: arms => walkArms (walkExpression errors e) arms
def walkList (errors : List Report) : List Expression → List Report
  | [] => errors
  | e :: es => walkList (walkExpression errors e) es
end

end

structure State where
  cmap : CMap
  emap : EMap
  errors : List Report

def addPayloadSins (cmap : CMap) (acc : Finset Ffi) : Option Constructor → Finset Ffi
  | some c => acc ∪ sins settings cmap c
  | none => acc

def datatypeSins (cmap : CMap) (dt : DatatypeDecl) : Finset Ffi :=
  dt.constrs.foldl (fun acc xnc => addPayloadSins settings cmap acc xnc.2.2) ∅

def enterBinding (emap : EMap) (vi : ValBinding) : EMap :=
  Function.update emap vi.id (some (vi.t, vi.s))

def processDeclaration (st : State) : Declaration → State
  | .constructor _ n _ c =>
    { st with cmap := Function.update st.cmap n (some (sins settings st.cmap c)) }
  -- each datatype sees the earlier ones of its group
  | .datatype dts =>
    { st with cmap := dts.foldl (fun cmap dt =>
        Function.update cmap dt.id (some (datatypeSins settings cmap dt))) st.cmap }
  | .val vi =>
    { st with
      emap := enterBinding st.emap vi
      errors := walkExpression settings st.cmap st.errors vi.body }
  | .valRec vis =>
    { st with
      emap := vis.foldl enterBinding st.emap
      errors := vis.foldl (fun errors vi => walkExpression settings st.cmap errors vi.body) st.errors }
  | .export _ n _ => match st.emap n with
    | none =>
      { st with errors := st.errors ++
          [⟨.exportNamesUndefinedValue, [], .hintExportNamesUndefinedValue⟩] }
    | some (t, tag) =>
      let s := makeS settings st.cmap t
      if s = ∅ then st else
        { st with errors := st.errors ++
            [⟨.exportedHandlerUnsafeTypes, [tag, sinsToString s], .hintExportedHandlerUnsafeTypes⟩] }
  | .cookie _ _ t tag =>
    let s := sins settings st.cmap t
    if s = ∅ then st else
      { st with errors := st.errors ++ [⟨.cookieStoresUnmarshallableTypes, [tag, sinsToString s],
          .hintCookieStoresUnmarshallableTypes⟩] }
  | .table td =>
    let errors := walkExpression settings st.cmap st.errors td.exp
    { st with errors := walkExpression settings st.cmap errors td.pkExp }
  | .view _ _ _ e _ | .policy e =>
    { st with errors := walkExpression settings st.cmap st.errors e }
  | .index e1 e2 | .task e1 e2 =>
    let errors := walkExpression settings st.cmap st.errors e1
    { st with errors := walkExpression settings st.cmap errors e2 }
  | .sequence _ _ _ | .database _ | .style _ _ _ | .onError _ => st

/-- The errors reported for a file. -/
def check (file : File) : List Report :=
  (file.foldl (processDeclaration settings) ⟨fun _ => none, fun _ => none, []⟩).errors

end

end UrWeb.Core.MarshalCheck
