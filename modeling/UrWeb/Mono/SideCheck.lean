import Mathlib.Data.Finset.Sort
import Mathlib.Data.String.Basic
import UrWeb.Lib.Worklist
import UrWeb.Mono.Typing
import UrWeb.Mono.Utilities
import UrWeb.References
import UrWeb.Settings

/-!
# The side check

Server code may not use client-only functions. Scripts are not looked at, and
neither are pages with a client side, what their scripts use, and the groups
that these belong to. The check also lists the environment variables that the
code it looks at reads.
-/

namespace UrWeb.Mono.SideCheck

/-- Deeper recursion panics. -/
def maxCheckExpDepth : Nat := 500000

inductive Report
  | serverCallsClientOnlyFfi (module display : String)
  | getenvNotCompileTimeString
  deriving DecidableEq, Repr

/-- A dynamic environment variable is only a warning. -/
def Report.isError : Report → Bool
  | .serverCallsClientOnlyFfi _ _ => true
  | .getenvNotCompileTimeString => false

structure State where
  reports : List Report
  envVars : Finset String
  warnedDynamic : Bool
  panicked : Bool

def ffiSymbolForDiagnostic (module symbol : String) : String :=
  if module = "Basis" then
    if symbol = "get_client_source" then "get" else symbol
  else symbol

def reportClientOnlyFfiInServer (st : State) (module symbol : String) : State :=
  { st with reports := st.reports ++
      [.serverCallsClientOnlyFfi module (ffiSymbolForDiagnostic module symbol)] }

/-- At most one warning is reported. -/
def warnGetenvNameNotCompileTimeString (st : State) : State :=
  if st.warnedDynamic then st else
    { st with
      warnedDynamic := true
      reports := st.reports ++ [.getenvNotCompileTimeString] }

section
variable (settings : Settings)

def checkFfi (st : State) (m x : String) : State :=
  if settings.isClientOnly (m, x) then reportClientOnlyFfiInServer st m x else st

def checkGetenv (st : State) : List (Exp × Typ) → State
  | [(.prim (.string _ s), _)] => { st with envVars := insert s st.envVars }
  | _ => warnGetenvNameNotCompileTimeString st

/-- What is done at one node, before its parts are looked at. -/
def checkNode (st : State) (e : Nat × Exp) : State :=
  if maxCheckExpDepth < e.1 then { st with panicked := true } else
    match e.2 with
    | .ffi m x => checkFfi settings st m x
    | .ffiApp m x args =>
      if m = "Basis" ∧ x = "getenv" then checkGetenv st args else checkFfi settings st m x
    | _ => st

def checkExp (st : State) (e : Exp) : State := (e.nodesAt false 0).foldl (checkNode settings) st

end

-- ---------------------------------------------------------------------------
-- What scripts use
-- ---------------------------------------------------------------------------

def namedId : Exp → Option Nat
  | .named n | .closure n _ => some n
  | _ => none

def collectNamedIdsAny (e : Exp) : List Nat := (e.nodes true).filterMap namedId

def scriptIds : Exp → List Nat
  | .javaScript _ body => collectNamedIdsAny body
  | .closure n _ => [n]
  | _ => []

def collectNamedIdsInJavascript (e : Exp) : List Nat := (e.nodes false).flatMap scriptIds

/-- The pages that have a client side. -/
def clientIds (file : File) : Finset Nat :=
  ((file.2.filter fun p => p.2.1 ≠ .serverOnly).map Prod.fst).toFinset

def declBodies (decls : List Decl) : Nat → Option Exp :=
  (bindings decls).foldl (fun m vi => Function.update m vi.n (some vi.e)) fun _ => none

def helperRoots (file : File) : List Nat :=
  ((bindings file.1).filter fun vi => vi.n ∈ clientIds file).flatMap fun vi =>
    collectNamedIdsInJavascript vi.e

def helperSuccs (decls : List Decl) (n : Nat) : List Nat :=
  match declBodies decls n with
  | some body => collectNamedIdsAny body
  | none => []

/-- Every id enters the queue at most once, which bounds the number of turns. -/
def clientHelperIds (file : File) : Finset Nat :=
  Worklist.search (helperSuccs file.1)
    ((bindings file.1).flatMap fun vi => collectNamedIdsAny vi.e).length (helperRoots file)

-- ---------------------------------------------------------------------------
-- The check
-- ---------------------------------------------------------------------------

section
variable (settings : Settings) (file : File)

def onClient (vi : ValBinding) : Bool := vi.n ∈ clientIds file ∨ vi.n ∈ clientHelperIds file

def checkDecl (st : State) : Decl → State
  | .val vi => if onClient file vi then st else checkExp settings st vi.e
  | .valRec vis =>
    if vis.any (onClient file) then st else vis.foldl (fun st vi => checkExp settings st vi.e) st
  | _ => st

structure Result where
  file : File
  envVars : List String
  reports : List Report

/-- `none` is a panic. -/
def check : Option Result :=
  let st := file.1.foldl (checkDecl settings file) ⟨[], ∅, false, false⟩
  if st.panicked then none else some ⟨file, st.envVars.sort (· ≤ ·), st.reports⟩

end

end UrWeb.Mono.SideCheck
