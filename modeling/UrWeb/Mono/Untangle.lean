import UrWeb.Core.Untangling
import UrWeb.Mono.References

/-!
# Splitting recursive groups in Mono

The same pass over the monomorphic representation. It follows named references
only, allows more steps for one scan, and stops with an internal error where a
search does not finish; and it splits groups as the Core pass does, with
dependents first.
-/

namespace UrWeb.Mono

open Untangle

mutual
def collectAllNamedRefs : Exp → Finset Nat → Finset Nat
  | .prim _, deps | .rel _, deps | .ffi _ _, deps | .none _, deps => deps
  | .named n, deps => insert n deps
  | .con _ _ arg, deps => collectOption arg deps
  | .some _ e, deps => collectAllNamedRefs e deps
  | .ffiApp _ _ args, deps => collectArgs args deps
  | .app e1 e2, deps | .binop _ _ e1 e2, deps | .strcat e1 e2, deps | .seq e1 e2, deps
  | .signalBind e1 e2, deps | .setval e1 e2, deps | .letIn _ _ e1 e2, deps =>
    collectAllNamedRefs e2 (collectAllNamedRefs e1 deps)
  | .abs _ _ _ e, deps | .unop _ e, deps | .field e _, deps | .write e, deps
  | .signalReturn e, deps | .signalSource e, deps | .sleep e, deps | .spawn e, deps
  | .nextval e, deps | .dml e _, deps => collectAllNamedRefs e deps
  | .record xets, deps => collectFields xets deps
  | .case disc arms _, deps => collectArms arms (collectAllNamedRefs disc deps)
  | .error e _, deps | .redirect e _, deps | .uurlify e _ _, deps | .serverCall e _ _ _, deps
  | .recv e _, deps | .javaScript _ e, deps => collectAllNamedRefs e deps
  | .returnBlob blob mimeType _, deps => collectAllNamedRefs mimeType (collectOption blob deps)
  | .closure _ envs, deps => collectList envs deps
  | .query _ q body initial, deps =>
    collectAllNamedRefs initial (collectAllNamedRefs body (collectAllNamedRefs q deps))
def collectOption : Option Exp → Finset Nat → Finset Nat
  | .none, deps => deps
  | .some e, deps => collectAllNamedRefs e deps
def collectArgs : List (Exp × Typ) → Finset Nat → Finset Nat
  | [], deps => deps
  | (e, _) :: args, deps => collectArgs args (collectAllNamedRefs e deps)
def collectFields : List (String × Exp × Typ) → Finset Nat → Finset Nat
  | [], deps => deps
  | (_, e, _) :: xets, deps => collectFields xets (collectAllNamedRefs e deps)
def collectArms : List (Pat × Exp) → Finset Nat → Finset Nat
  | [], deps => deps
  | (_, e) :: arms, deps => collectArms arms (collectAllNamedRefs e deps)
def collectList : List Exp → Finset Nat → Finset Nat
  | [], deps => deps
  | e :: es, deps => collectList es (collectAllNamedRefs e deps)
end

def findAllNamedRefs (e : Exp) : Finset Nat := collectAllNamedRefs e ∅

def ValBinding.deps (vi : ValBinding) : Finset Nat := findAllNamedRefs vi.e

/-- A group as declarations, or an internal error where a search does not finish. -/
def splitValRec (vis : List ValBinding) : Option (List (Piece ValBinding)) :=
  let nodes := groupIds ValBinding.n vis
  let neighborPopCap :=
    max (nodes.card + edgeCount nodes (dependencyMap ValBinding.n ValBinding.deps vis)) 1 + 1
  let r := groupSccs ValBinding.n ValBinding.deps neighborPopCap vis
  if r.2 then some (assemble ValBinding.n ValBinding.deps vis r.1) else none

def pieceDecl : Piece ValBinding → Decl
  | .val vi => .val vi
  | .valRec vis => .valRec vis

def untangleDecl : Decl → Option (List Decl)
  | .valRec vis => (splitValRec vis).map fun pieces => pieces.map pieceDecl
  | d => some [d]

def untangle (file : File) : Option File :=
  (file.1.mapM untangleDecl).map fun decls => (decls.flatten, file.2)

-- ---------------------------------------------------------------------------
-- The references collected
-- ---------------------------------------------------------------------------

theorem Typ.not_exp_mem_refs (t : Typ) : .exp n ∉ t.refs := by
  induction t with
  | record fields ih =>
    rw [Typ.refs]
    induction fields with
    | nil => simp [Typ.fieldRefs]
    | cons f fields ihf =>
      simp [Typ.fieldRefs, ih f, ihf fun g hg => ih g (List.mem_cons_of_mem _ hg)]
  | _ => simp_all [Typ.refs]

theorem Typ.not_exp_mem_fieldRefs (fields : List (String × Typ)) :
    .exp n ∉ Typ.fieldRefs fields := by
  induction fields with
  | nil => simp [Typ.fieldRefs]
  | cons f fields ih => simp [Typ.fieldRefs, Typ.not_exp_mem_refs, ih]

theorem PatCon.not_exp_mem_refs (pc : PatCon) : .exp n ∉ pc.refs := by
  cases pc with
  | var => simp [PatCon.refs]
  | ffi _ _ _ arg => cases arg <;> simp [PatCon.refs, Typ.not_exp_mem_refs]

theorem Pat.not_exp_mem_refs (p : Pat) : .exp n ∉ p.refs := by
  induction p with
  | con dk pc arg ih =>
    cases arg <;> simp_all [Pat.refs, Pat.argRefs, PatCon.not_exp_mem_refs]
  | record fields ih =>
    rw [Pat.refs]
    induction fields with
    | nil => simp [Pat.fieldRefs]
    | cons f fields ihf =>
      simp [Pat.fieldRefs, ih f, ihf fun g hg => ih g (List.mem_cons_of_mem _ hg),
        Typ.not_exp_mem_refs]
  | _ => simp_all [Pat.refs, Typ.not_exp_mem_refs]

theorem QueryTypes.not_exp_mem_refs (qm : QueryTypes) : .exp n ∉ qm.refs := by
  simp [QueryTypes.refs, Typ.not_exp_mem_refs, Typ.not_exp_mem_fieldRefs]

theorem JavaScriptMode.not_exp_mem_refs (mode : JavaScriptMode) : .exp n ∉ mode.refs := by
  cases mode <;> simp [JavaScriptMode.refs, Typ.not_exp_mem_refs]

attribute [local simp] Typ.not_exp_mem_refs PatCon.not_exp_mem_refs Pat.not_exp_mem_refs
  QueryTypes.not_exp_mem_refs JavaScriptMode.not_exp_mem_refs

/-- The ids collected are the value ids that the expression mentions. -/
theorem mem_collectAllNamedRefs (e : Exp) (deps : Finset Nat) :
    n ∈ collectAllNamedRefs e deps ↔ n ∈ deps ∨ .exp n ∈ e.refs := by
  induction e generalizing deps with
  | named m => simp [collectAllNamedRefs, Exp.refs, or_comm]
  | con dk pc arg ih =>
    cases arg <;> simp_all [collectAllNamedRefs, collectOption, Exp.refs, Exp.optRefs]
  | ffiApp m x args ih =>
    rw [collectAllNamedRefs, Exp.refs]
    induction args generalizing deps with
    | nil => simp [collectArgs, Exp.argRefs]
    | cons a args iha =>
      rw [collectArgs, iha fun b hb => ih b (List.mem_cons_of_mem _ hb)]
      simp [Exp.argRefs, ih a, or_assoc]
  | record xets ih =>
    rw [collectAllNamedRefs, Exp.refs]
    induction xets generalizing deps with
    | nil => simp [collectFields, Exp.fieldRefs]
    | cons a xets iha =>
      rw [collectFields, iha fun b hb => ih b (List.mem_cons_of_mem _ hb)]
      simp [Exp.fieldRefs, ih a, or_assoc]
  | case disc arms info ihd ih =>
    have harms (deps' : Finset Nat) :
        n ∈ collectArms arms deps' ↔ n ∈ deps' ∨ .exp n ∈ Exp.armRefs arms := by
      induction arms generalizing deps' with
      | nil => simp [collectArms, Exp.armRefs]
      | cons a arms iha =>
        rw [collectArms, iha fun b hb => ih b (List.mem_cons_of_mem _ hb)]
        simp [Exp.armRefs, ih a, or_assoc]
    simp [collectAllNamedRefs, Exp.refs, harms, ihd, or_assoc]
  | returnBlob blob mimeType t ih ihm =>
    cases blob <;>
      simp_all [collectAllNamedRefs, collectOption, Exp.refs, Exp.optRefs, or_assoc]
  | closure m envs ih =>
    rw [collectAllNamedRefs, Exp.refs]
    induction envs generalizing deps with
    | nil => simp [collectList, Exp.listRefs]
    | cons a envs iha =>
      rw [collectList, iha fun b hb => ih b (List.mem_cons_of_mem _ hb)]
      simp [Exp.listRefs, ih a, or_assoc]
  | _ => simp_all [collectAllNamedRefs, Exp.refs, or_assoc]

theorem mem_findAllNamedRefs : n ∈ findAllNamedRefs e ↔ .exp n ∈ e.refs := by
  simp [findAllNamedRefs, mem_collectAllNamedRefs]

-- ---------------------------------------------------------------------------
-- Both passes
-- ---------------------------------------------------------------------------

theorem splitValRec_iff (vis : List ValBinding) : ∃ pieces, splitValRec vis = some pieces ∧
    (Untangled ValBinding.n ValBinding.deps vis pieces ↔
      Separable ValBinding.n ValBinding.deps vis) := by
  obtain ⟨hflag, hiff⟩ := untangled_iff ValBinding.n ValBinding.deps vis
    (show _ ≤ max ((groupIds ValBinding.n vis).card + edgeCount (groupIds ValBinding.n vis)
      (dependencyMap ValBinding.n ValBinding.deps vis)) 1 + 1 by omega)
  exact ⟨_, if_pos hflag, hiff⟩

/-- Neither pass loses or duplicates a search, and both give the components in order
exactly for the separable groups. -/
theorem untangle_order_iff (group : List Core.ValBinding) (vis : List ValBinding) :
    (Untangled Core.ValBinding.id Core.ValBinding.deps group (Core.splitValRecIntoSccs group) ↔
        Separable Core.ValBinding.id Core.ValBinding.deps group) ∧
    ∃ pieces, splitValRec vis = some pieces ∧
      (Untangled ValBinding.n ValBinding.deps vis pieces ↔
        Separable ValBinding.n ValBinding.deps vis) :=
  ⟨Core.splitValRecIntoSccs_iff group, splitValRec_iff vis⟩

section
open Core (splitValRecIntoSccs)

def coreConstant : Core.ValBinding := ⟨"a", 1, .unit, .prim (.int 0), "a"⟩
def coreUser : Core.ValBinding := ⟨"b", 2, .unit, .named 1, "b"⟩
def constant : ValBinding := ⟨"a", 1, .source, .prim (.int 0), "a"⟩
def user : ValBinding := ⟨"b", 2, .source, .named 1, "b"⟩

/-- A group whose second member refers to the first comes out dependents first. -/
theorem untangle_dependents_first :
    splitValRecIntoSccs [coreConstant, coreUser] = [.val coreUser, .val coreConstant] ∧
    ¬ Untangled Core.ValBinding.id Core.ValBinding.deps [coreConstant, coreUser]
      (splitValRecIntoSccs [coreConstant, coreUser]) ∧
    splitValRec [constant, user] = some [.val user, .val constant] ∧
    ¬ Untangled ValBinding.n ValBinding.deps [constant, user] [.val user, .val constant] := by
  have hcore : splitValRecIntoSccs [coreConstant, coreUser] =
      [.val coreUser, .val coreConstant] := by rfl
  have hmono : splitValRec [constant, user] = some [.val user, .val constant] := by
    have hsccs : groupSccs ValBinding.n ValBinding.deps 4 [constant, user] = ([{2}, {1}], true) := by
      decide +kernel
    have hcap : max ((groupIds ValBinding.n [constant, user]).card +
        edgeCount (groupIds ValBinding.n [constant, user])
          (dependencyMap ValBinding.n ValBinding.deps [constant, user])) 1 + 1 = 4 := by
      decide +kernel
    simp only [splitValRec, hcap, hsccs]
    rfl
  refine ⟨hcore, fun h => ?_, hmono, fun h => ?_⟩
  · have horder := List.rel_of_pairwise_cons (hcore ▸ h.order) List.mem_cons_self
    refine horder coreUser List.mem_cons_self coreConstant List.mem_cons_self ?_
    exact Core.mem_findAllGlobalDepsInExpression.mpr ⟨.named 1, List.mem_cons_self, rfl⟩
  · have horder := List.rel_of_pairwise_cons h.order List.mem_cons_self
    refine horder user List.mem_cons_self constant List.mem_cons_self ?_
    exact mem_findAllNamedRefs.mpr List.mem_cons_self

end

end UrWeb.Mono
