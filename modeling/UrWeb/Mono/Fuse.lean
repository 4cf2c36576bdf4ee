import Mathlib.Logic.Function.Basic
import UrWeb.Mono.Typing
import UrWeb.Mono.Utilities

/-!
# The fuse pass

A function that returns a string gets a variant that writes the string, and
writing an application of the function becomes an application of the variant.
-/

namespace UrWeb.Mono

/-- The argument types of a type that ends in a string, and the type with the
string replaced by the unit. -/
def rsInner : Typ → Option (List Typ × Typ)
  | .ffi m x => if m = "Basis" ∧ x = "string" then some ([], .record []) else none
  | .func dom ran => (rsInner ran).map fun r => (dom :: r.1, .func dom r.2)
  | _ => none

def returnsString : Typ → Option (List Typ × Typ)
  | .func dom ran => (rsInner ran).map fun r => (dom :: r.1, .func dom r.2)
  | _ => none

def getBody : Exp → Nat → Option (Exp × List (String × Typ))
  | e, 0 => some (e, [])
  | .abs x dom _ body, count + 1 => (getBody body count).map fun r => (r.1, (x, dom) :: r.2)
  | _, _ + 1 => none

/-- Put the binders back around a body of unit type, the innermost first. -/
def rebuild (binders : List (String × Typ)) (written : Exp) : Exp × Typ :=
  binders.foldr (fun b r => (.abs b.1 b.2 r.2 r.1, .func b.2 r.2)) (written, .record [])

/-- The variant of a binding. The optimisation of the written body is a stub
that returns it as it is. -/
def doVi (vi : ValBinding) (fresh : Nat) : Option ValBinding :=
  (returnsString vi.t).bind fun r =>
    (getBody vi.e r.1.length).map fun b =>
      { vi with n := fresh, t := r.2, e := (rebuild b.2 (.write b.1)).1 }

section
variable (funcs : Nat → Option Nat)

/-- Replace the head of an application chain by its variant. -/
def unravel : Exp → Option Exp
  | .named n => (funcs n).map Exp.named
  | .app e1 e2 => (unravel e1).map fun e1' => .app e1' e2
  | _ => none

def fuseNode : Exp → Exp
  | .write e => (unravel funcs e).getD (.write e)
  | e => e

def fuseExp : Exp → Exp := Exp.map (fuseNode funcs)

end

def maxName (decls : List Decl) : Nat :=
  decls.foldl (fun m d => match d with
    | .datatype dts => dts.foldl (fun m dt =>
        dt.constrs.foldl (fun m xnc => max m xnc.2.1) (max m dt.id)) m
    | .val vi => max m vi.n
    | .valRec vis => vis.foldl (fun m vi => max m vi.n) m
    | _ => m) 0

structure FuseState where
  funcs : Nat → Option Nat
  nextId : Nat

/-- The variants of a group, each with the id it is a variant of. -/
def doVis : List ValBinding → Nat → List (Nat × ValBinding)
  | [], _ => []
  | vi :: vis, fresh =>
    match doVi vi fresh with
    | some vi' => (vi.n, vi') :: doVis vis (fresh + 1)
    | none => doVis vis fresh

def addVariants (d : Decl) (variants : List ValBinding) : Decl :=
  if variants.isEmpty then d else .valRec (d.bindings ++ variants)

def fuseDecl (s : FuseState) (d : Decl) : FuseState × Decl :=
  let variants := doVis d.bindings s.nextId
  let funcs : Nat → Option Nat :=
    variants.foldl (fun m v => Function.update m v.1 (some v.2.n)) s.funcs
  (⟨funcs, s.nextId + variants.length⟩,
    (addVariants d (variants.map Prod.snd)).map (fuseNode funcs))

def fuseDecls : FuseState → List Decl → List Decl
  | _, [] => []
  | s, d :: decls => (fuseDecl s d).2 :: fuseDecls (fuseDecl s d).1 decls

def fuse (file : File) : File :=
  (fuseDecls ⟨fun _ => none, maxName file.1 + 1⟩ file.1, file.2)

end UrWeb.Mono
