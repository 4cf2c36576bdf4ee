import UrWeb.Core.LocalReduction
import UrWeb.Core.Scope

/-!
# The elaboration of remote calls

Applications of `rpc` and `tryRpc` to a call of a named function become server
calls, and each function called this way is exported, in front of the declaration
with the first call. Bodies are reduced on the way. The results are optional since
the reductions need not end.
-/

namespace UrWeb.Core.RpcElaboration

open LocalReduction (reduceExp)

/-- A named function that returns a transaction, with what the transaction returns. -/
structure TFunc where
  ran : Constructor

inductive DiagnosticId
  | rpcCodeNotNamedFunction
  | rpcUndetectedTransactionFunction
  deriving DecidableEq, Repr

structure State where
  exported : Finset Nat
  exportDecls : List Declaration
  errors : List DiagnosticId

/-- What the first two passes find. -/
structure Context where
  rpcBaseIds : Finset Nat
  trpcBaseIds : Finset Nat
  tfuncs : Nat → Option TFunc

-- ---------------------------------------------------------------------------
-- What a file declares
-- ---------------------------------------------------------------------------

def isBasisRpcFfi (m f : String) : Bool := m = "Basis" && f = "rpc"

def isBasisTryRpcFfi (m f : String) : Bool := m = "Basis" && f = "tryRpc"

/-- Enter a value that is one of the primitives or an earlier alias. -/
def noteBaseId (ids : Finset Nat × Finset Nat) : Declaration → Finset Nat × Finset Nat
  | .val vi => match vi.body with
    | .ffi m f =>
      if isBasisRpcFfi m f then (insert vi.id ids.1, ids.2)
      else if isBasisTryRpcFfi m f then (ids.1, insert vi.id ids.2)
      else ids
    | .named n =>
      if n ∈ ids.1 then (insert vi.id ids.1, ids.2)
      else if n ∈ ids.2 then (ids.1, insert vi.id ids.2)
      else ids
    | _ => ids
  | _ => ids

def baseIds (file : File) : Finset Nat × Finset Nat := file.foldl noteBaseId (∅, ∅)

/-- What a transaction returns that a function of this type and this body leads to. -/
def crawl : Constructor → Expression → List (String × Constructor) → Option Constructor
  | .app _ ran, _, _ => some ran
  | .tFun arg rest, .abs argName _ _ body, args => crawl rest body (args ++ [(argName, arg)])
  -- eta expansion
  | .tFun arg rest, e, args => crawl rest (.app e (.rel args.length)) (args ++ [("x", arg)])
  | _, _, _ => none

def noteTFunc (tfuncs : Nat → Option TFunc) (vi : ValBinding) : Nat → Option TFunc :=
  match crawl vi.t vi.body [] with
  | some ran => Function.update tfuncs vi.id (some ⟨ran⟩)
  | none => tfuncs

def collectTFuncs (file : File) : Nat → Option TFunc := (bindings file).foldl noteTFunc fun _ => none

def context (file : File) : Context :=
  let ids := baseIds file
  ⟨ids.1, ids.2, collectTFuncs file⟩

-- ---------------------------------------------------------------------------
-- Rewriting
-- ---------------------------------------------------------------------------

/-- Peel applications off a named function. -/
def getApp : Expression → List Expression → Option (Nat × List Expression)
  | .named n, args => some (n, args)
  | .app function argument, args => getApp function (argument :: args)
  | _, _ => none

section
variable (cx : Context)

/-- The failure mode of the primitive that an expression stands for. -/
def primitive : Expression → Option FailureMode
  | .ffi m name =>
    if m = "Basis" && name = "rpc" then some .none
    else if m = "Basis" && name = "tryRpc" then some .error
    else none
  | .named n =>
    if n ∈ cx.rpcBaseIds then some .none
    else if n ∈ cx.trpcBaseIds then some .error
    else none
  | _ => none

/-- The failure mode and the transaction of a remote call. -/
def rpcCall : Expression → Option (FailureMode × Expression)
  | .app (.cApp f _) transaction => (primitive cx f).map fun fm => (fm, transaction)
  | _ => none

/-- Export a function, unless it is exported already. -/
def exportOnce (n : Nat) (st : State) : State :=
  if n ∈ st.exported then st else
    { st with
      exported := insert n st.exported
      exportDecls := st.exportDecls ++ [.export (.rpc .readWrite) n false] }

def report (id : DiagnosticId) (st : State) : State := { st with errors := st.errors ++ [id] }

def newRpc (transaction : Expression) (fm : FailureMode) (st : State) : Expression × State :=
  match getApp transaction [] with
  | none => (transaction, report .rpcCodeNotNamedFunction st)
  | some (n, args) => match cx.tfuncs n with
    | none => (transaction, report .rpcUndetectedTransactionFunction st)
    | some tf => (.serverCall n args tf.ran fm, exportOnce n st)

def rewriteExp : Nat → Expression → StateT State Option Expression
  | 0, _ => failure
  | fuel + 1, e => do
    let e ← reduceExp fuel e
    match rpcCall cx e with
    | some (fm, transaction) => modifyGet (newRpc cx transaction fm)
    | none => match e with
      | .app f x => do
        let f ← rewriteExp fuel f
        let x ← rewriteExp fuel x
        return .app f x
      | .abs x dom ran body => do
        let body ← rewriteExp fuel body
        return .abs x dom ran body
      | .cApp f c => do
        let f ← rewriteExp fuel f
        return .cApp f c
      | .cAbs x k body => do
        let body ← rewriteExp fuel body
        return .cAbs x k body
      | .kAbs x body => do
        let body ← rewriteExp fuel body
        return .kAbs x body
      | .kApp f k => do
        let f ← rewriteExp fuel f
        return .kApp f k
      | .letIn x t e1 e2 => do
        let e1 ← rewriteExp fuel e1
        let e2 ← rewriteExp fuel e2
        return .letIn x t e1 e2
      | .case disc arms info => do
        let disc ← rewriteExp fuel disc
        let arms ← arms.mapM fun a => do
          let body ← rewriteExp fuel a.2
          return (a.1, body)
        return .case disc arms info
      | .write inner => do
        let inner ← rewriteExp fuel inner
        return .write inner
      | .record fields => do
        let fields ← fields.mapM fun f => do
          let v ← rewriteExp fuel f.2.1
          return (f.1, v, f.2.2)
        return .record fields
      | .concat e1 c1 e2 c2 => do
        let e1 ← rewriteExp fuel e1
        let e2 ← rewriteExp fuel e2
        return .concat e1 c1 e2 c2
      | .field e c info => do
        let e ← rewriteExp fuel e
        return .field e c info
      | .ffiApp m f args => do
        let args ← args.mapM fun a => do
          let e ← rewriteExp fuel a.1
          return (e, a.2)
        return .ffiApp m f args
      | .serverCall n args t fm => do
        let args ← args.mapM (rewriteExp fuel)
        return .serverCall n args t fm
      -- what is inside constructors, cuts and closures is left as it is
      | other => return other

def rewriteBinding (fuel : Nat) (vi : ValBinding) : StateT State Option ValBinding := do
  let body ← rewriteExp cx fuel vi.body
  return { vi with body }

def rewriteDecl (fuel : Nat) : Declaration → StateT State Option Declaration
  | .val vi => do
    let vi ← rewriteBinding cx fuel vi
    return .val vi
  | .valRec vis => do
    let vis ← vis.mapM (rewriteBinding cx fuel)
    return .valRec vis
  | .task e1 e2 => do
    let e1 ← rewriteExp cx fuel e1
    let e2 ← rewriteExp cx fuel e2
    return .task e1 e2
  | .policy e => do
    let e ← rewriteExp cx fuel e
    return .policy e
  | other => return other

/-- The new exports stand in front of the declaration. -/
def rewriteDecls (fuel : Nat) : File → StateT State Option File
  | [] => return []
  | d :: ds => do
    let d ← rewriteDecl cx fuel d
    let exportDecls ← modifyGet fun st => (st.exportDecls, { st with exportDecls := [] })
    let ds ← rewriteDecls fuel ds
    return exportDecls ++ d :: ds

end

/-- The rewritten file and what is reported. -/
def rpcify (fuel : Nat) (file : File) : Option (File × List DiagnosticId) := do
  let (result, st) ← rewriteDecls (context file) fuel file ⟨∅, [], []⟩
  some (result, st.errors)

end UrWeb.Core.RpcElaboration
