import UrWeb.Core.References
import UrWeb.Core.Utilities
import UrWeb.Untangle

/-!
# Splitting recursive groups in Core
-/

namespace UrWeb.Core

open Untangle

def referencedId : Expression → Option Nat
  | .named n => some n
  | .closure n _ => some n
  | .serverCall n _ _ _ => some n
  | _ => none

def findAllGlobalDepsInExpression (e : Expression) : Finset Nat :=
  e.fold (fun e st => match referencedId e with
    | some n => insert n st
    | none => st) ∅

def ValBinding.deps (vi : ValBinding) : Finset Nat := findAllGlobalDepsInExpression vi.body

/-- A group as declarations. A search that runs out of steps is left as it is. -/
def splitValRecIntoSccs (vis : List ValBinding) : List (Piece ValBinding) :=
  let successorPopCap := (groupIds ValBinding.id vis).card + 1
  assemble ValBinding.id ValBinding.deps vis
    (groupSccs ValBinding.id ValBinding.deps successorPopCap vis).1

def pieceDecl : Piece ValBinding → Declaration
  | .val vi => .val vi
  | .valRec vis => .valRec vis

def untangle (file : File) : File :=
  file.flatMap fun
    | .valRec vis => (splitValRecIntoSccs vis).map pieceDecl
    | d => [d]

-- ---------------------------------------------------------------------------
-- The references collected
-- ---------------------------------------------------------------------------

theorem mem_findAllGlobalDepsInExpression :
    n ∈ findAllGlobalDepsInExpression e ↔ ∃ e' ∈ e.nodes, referencedId e' = some n := by
  have hfold (l : List Expression) (st : Finset Nat) :
      n ∈ l.foldl (fun st e => match referencedId e with
          | some n => insert n st
          | none => st) st ↔ n ∈ st ∨ ∃ e' ∈ l, referencedId e' = some n := by
    induction l generalizing st with
    | nil => simp
    | cons e l ih =>
      rw [List.foldl_cons, ih]
      cases h : referencedId e with
      | none => simp [h]
      | some m => simp [h, or_assoc, or_left_comm, eq_comm]
  simp [findAllGlobalDepsInExpression, Expression.fold, hfold]

theorem splitValRecIntoSccs_iff (vis : List ValBinding) :
    Untangled ValBinding.id ValBinding.deps vis (splitValRecIntoSccs vis) ↔
      Separable ValBinding.id ValBinding.deps vis :=
  (untangled_iff _ _ _ (Nat.le_succ _)).2

end UrWeb.Core
