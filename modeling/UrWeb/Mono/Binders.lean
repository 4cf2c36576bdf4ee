import UrWeb.Mono.Utilities
import UrWeb.References

/-!
# Binders and free indices

How many binders each part of a node stands under, which indices an expression
leaves free, and the collection of them that several Mono passes share.
-/

namespace UrWeb.Mono

mutual
/-- The number of variables that a pattern binds. -/
def patDepth : Pat → Nat
  | .var _ _ => 1
  | .prim _ | .none _ => 0
  | .con _ _ inner => patDepthOption inner
  | .record fields => patDepthFields fields
  | .some _ inner => patDepth inner
def patDepthOption : Option Pat → Nat
  | .none => 0
  | .some p => patDepth p
def patDepthFields : List (String × Pat × Typ) → Nat
  | [] => 0
  | (_, p, _) :: fields => patDepth p + patDepthFields fields
end

/-- The parts of a node, each with the number of binders it is under. A query's
body counts as under `rows` of them; the evaluator has two there. -/
def Exp.parts (rows : Nat) : Exp → List (Nat × Exp)
  | .prim _ | .rel _ | .named _ | .none _ | .ffi _ _ => []
  | .con _ _ arg => arg.toList.map (0, ·)
  | .ffiApp _ _ args => args.map fun a => (0, a.1)
  | .app e1 e2 | .binop _ _ e1 e2 | .strcat e1 e2 | .seq e1 e2 | .setval e1 e2
  | .signalBind e1 e2 => [(0, e1), (0, e2)]
  | .abs _ _ _ body => [(1, body)]
  | .letIn _ _ e1 e2 => [(0, e1), (1, e2)]
  | .some _ e | .unop _ e | .field e _ | .error e _ | .redirect e _ | .write e | .dml e _
  | .nextval e | .uurlify e _ _ | .javaScript _ e | .signalReturn e | .signalSource e
  | .serverCall e _ _ _ | .recv e _ | .sleep e | .spawn e => [(0, e)]
  | .record xets => xets.map fun f => (0, f.2.1)
  | .case disc arms _ => (0, disc) :: arms.map fun a => (patDepth a.1, a.2)
  | .returnBlob blob mimeType _ => blob.toList.map (0, ·) ++ [(0, mimeType)]
  | .closure _ envs => envs.map (0, ·)
  | .query _ q body initial => [(0, q), (rows, body), (0, initial)]

theorem Exp.parts_children (rows : Nat) (e : Exp) : (e.parts rows).map Prod.snd = e.children := by
  cases e <;> simp [Exp.parts, Exp.children, Function.comp_def]

theorem Exp.mem_children (h : (k, c) ∈ Exp.parts rows e) : c ∈ e.children := by
  rw [← Exp.parts_children rows]
  exact List.mem_map_of_mem h

/-- Induction over an expression by its parts. -/
theorem Exp.induct_parts (rows : Nat) {P : Exp → Prop}
    (h : ∀ e, (∀ p ∈ e.parts rows, P p.2) → P e) (e : Exp) : P e := by
  induction e using Exp.induct_children with
  | h e ih => exact h e fun p hp => ih p.2 (Exp.mem_children hp)

-- ---------------------------------------------------------------------------
-- Nodes under binders
-- ---------------------------------------------------------------------------

/-- `e` at depth `d` has the node `x` at depth `d'`. The way down goes through the
nodes that it `enters`. -/
inductive Exp.Reaches (rows : Nat) (enters : Exp → Prop) : Nat → Exp → Nat → Exp → Prop
  | here : Reaches rows enters d e d e
  | part : enters e → (k, c) ∈ e.parts rows → Reaches rows enters (d + k) c d' x →
    Reaches rows enters d e d' x

abbrev Exp.Has (d : Nat) (e : Exp) (d' : Nat) (x : Exp) : Prop :=
  Exp.Reaches 2 (fun _ => True) d e d' x

/-- Every index refers to one of the binders around it, `d` of them outside. -/
def Exp.Scoped (d : Nat) (e : Exp) : Prop := ∀ d' n, e.Has d d' (.rel n) → n < d'

theorem Exp.Reaches.imp {rows : Nat} {enters enters' : Exp → Prop}
    (h : Exp.Reaches rows enters d e d' x) (himp : ∀ e, enters e → enters' e) :
    Exp.Reaches rows enters' d e d' x := by
  induction h with
  | here => exact .here
  | part he hp _ ih => exact .part (himp _ he) hp ih

theorem Exp.Reaches.trans {rows : Nat} {enters : Exp → Prop}
    (h : Exp.Reaches rows enters d e d' x) (h' : Exp.Reaches rows enters d' x d'' y) :
    Exp.Reaches rows enters d e d'' y := by
  induction h with
  | here => exact h'
  | part he hp _ ih => exact .part he hp (ih h')

theorem Exp.Scoped.of_has (h : Exp.Scoped d e) (hr : Exp.Has d e d' x) : Exp.Scoped d' x :=
  fun d'' n hn => h d'' n (hr.trans hn)

/-- The index `v` occurs free, a query's body counted as under `rows` binders. -/
def Exp.Occurs (rows : Nat) (v : Nat) (e : Exp) : Prop :=
  ∃ k, Exp.Reaches rows (fun _ => True) 0 e k (.rel (v + k))

abbrev Exp.Free (v : Nat) (e : Exp) : Prop := Exp.Occurs 2 v e

theorem Exp.reaches_iff {rows : Nat} {enters : Exp → Prop} : Exp.Reaches rows enters d e d' x ↔
    (d' = d ∧ x = e) ∨
      enters e ∧ ∃ p ∈ e.parts rows, Exp.Reaches rows enters (d + p.1) p.2 d' x := by
  constructor
  · rintro (_ | ⟨he, hp, h⟩)
    · exact .inl ⟨rfl, rfl⟩
    · exact .inr ⟨he, _, hp, h⟩
  · rintro (⟨rfl, rfl⟩ | ⟨he, _, hp, h⟩)
    · exact .here
    · exact .part he hp h

/-- Starting deeper only adds to the depths that are reached. -/
theorem Exp.Reaches.shift {rows : Nat} {enters : Exp → Prop} (m : Nat)
    (h : Exp.Reaches rows enters d e d' x) : Exp.Reaches rows enters (m + d) e (m + d') x := by
  induction h with
  | here => exact .here
  | part he hp _ ih => exact .part he hp (Nat.add_assoc .. ▸ ih)

theorem Exp.Reaches.unshift {rows : Nat} {enters : Exp → Prop}
    (h : Exp.Reaches rows enters d e d' x) : ∃ k, d' = d + k ∧ Exp.Reaches rows enters 0 e k x := by
  induction h with
  | here => exact ⟨0, rfl, .here⟩
  | @part e k c d d' x he hp _ ih =>
    obtain ⟨j, rfl, h⟩ := ih
    refine ⟨k + j, Nat.add_assoc .., .part he hp ?_⟩
    simpa using h.shift k

theorem Exp.reaches_shift_iff {rows : Nat} {enters : Exp → Prop} :
    Exp.Reaches rows enters d e (d + k) x ↔ Exp.Reaches rows enters 0 e k x := by
  constructor
  · intro h
    obtain ⟨j, hj, h⟩ := h.unshift
    exact Nat.add_left_cancel hj ▸ h
  · intro h
    simpa using h.shift d

/-- `K` holds of every node that `e` at depth `d` reaches, with its depth. -/
def Exp.Always (enters : Exp → Prop) (K : Nat → Exp → Prop) (d : Nat) (e : Exp) : Prop :=
  ∀ d' x, Exp.Reaches 2 enters d e d' x → K d' x

theorem Exp.always_iff {enters : Exp → Prop} {K : Nat → Exp → Prop} : Exp.Always enters K d e ↔
    K d e ∧ (enters e → ∀ p ∈ e.parts 2, Exp.Always enters K (d + p.1) p.2) := by
  constructor
  · intro h
    exact ⟨h d e .here, fun he p hp d' x hr => h d' x (.part he hp hr)⟩
  · rintro ⟨hhere, hparts⟩ d' x hr
    rcases Exp.reaches_iff.mp hr with ⟨rfl, rfl⟩ | ⟨he, p, hp, hr⟩
    · exact hhere
    · exact hparts he p hp d' x hr

/-- `K` holds of every node, with the depth that it is at. -/
abbrev Exp.Everywhere (K : Nat → Exp → Prop) (d : Nat) (e : Exp) : Prop :=
  Exp.Always (fun _ => True) K d e

section
variable {K : Nat → Exp → Prop}

theorem Exp.everywhere_iff {e : Exp} : e.Everywhere K d ↔
    K d e ∧ ∀ p ∈ e.parts 2, p.2.Everywhere K (d + p.1) := by
  rw [Exp.Everywhere, Exp.always_iff]
  simp

theorem everywhere_rel : (Exp.rel n).Everywhere K d ↔ K d (.rel n) := by
  rw [Exp.everywhere_iff]
  simp [Exp.parts]

theorem everywhere_some : (Exp.some t e).Everywhere K d ↔
    K d (.some t e) ∧ e.Everywhere K d := by
  rw [Exp.everywhere_iff]
  simp [Exp.parts]

theorem everywhere_ffiApp : (Exp.ffiApp m x args).Everywhere K d ↔
    K d (.ffiApp m x args) ∧ ∀ a ∈ args, a.1.Everywhere K d := by
  rw [Exp.everywhere_iff]
  simp only [Exp.parts, List.forall_mem_map, Nat.add_zero]

theorem everywhere_seq : (Exp.seq e1 e2).Everywhere K d ↔
    K d (.seq e1 e2) ∧ e1.Everywhere K d ∧ e2.Everywhere K d := by
  rw [Exp.everywhere_iff]
  simp [Exp.parts]

theorem everywhere_letIn : (Exp.letIn x t e1 e2).Everywhere K d ↔
    K d (.letIn x t e1 e2) ∧ e1.Everywhere K d ∧ e2.Everywhere K (d + 1) := by
  rw [Exp.everywhere_iff]
  simp [Exp.parts]

theorem everywhere_uurlify : (Exp.uurlify e t b).Everywhere K d ↔
    K d (.uurlify e t b) ∧ e.Everywhere K d := by
  rw [Exp.everywhere_iff]
  simp [Exp.parts]

theorem everywhere_dml : (Exp.dml e fm).Everywhere K d ↔
    K d (.dml e fm) ∧ e.Everywhere K d := by
  rw [Exp.everywhere_iff]
  simp [Exp.parts]

theorem everywhere_case : (Exp.case disc arms info).Everywhere K d ↔
    K d (.case disc arms info) ∧ disc.Everywhere K d ∧
      ∀ a ∈ arms, a.2.Everywhere K (d + patDepth a.1) := by
  rw [Exp.everywhere_iff]
  simp only [Exp.parts, List.forall_mem_cons, List.forall_mem_map, Nat.add_zero]

end

/-- An index is below the depth that it is at. -/
def InScope (d : Nat) (e : Exp) : Prop := ∀ n, e = .rel n → n < d

theorem Exp.scoped_iff_everywhere : Exp.Scoped d e ↔ e.Everywhere InScope d :=
  ⟨fun h d' _ hr n he => h d' n (he ▸ hr), fun h d' n hr => h d' _ hr n rfl⟩

theorem Exp.occurs_iff : Exp.Occurs rows v e ↔
    e = .rel v ∨ ∃ p ∈ e.parts rows, Exp.Occurs rows (v + p.1) p.2 := by
  constructor
  · rintro ⟨k, h⟩
    rcases Exp.reaches_iff.mp h with ⟨rfl, rfl⟩ | ⟨-, p, hp, h⟩
    · exact .inl rfl
    · obtain ⟨j, rfl, h⟩ := h.unshift
      refine .inr ⟨p, hp, j, ?_⟩
      simpa [Nat.add_assoc] using h
  · rintro (rfl | ⟨p, hp, j, h⟩)
    · exact ⟨0, .here⟩
    · refine ⟨p.1 + j, .part trivial hp ?_⟩
      simpa [Nat.add_assoc] using Exp.reaches_shift_iff.mpr h

/-- Scoping is about the free indices only. -/
theorem Exp.scoped_iff_free : Exp.Scoped d e ↔ ∀ v, Exp.Free v e → v < d := by
  constructor
  · rintro h v ⟨k, hr⟩
    have := h (d + k) (v + k) (Exp.reaches_shift_iff.mpr hr)
    omega
  · intro h d' n hr
    obtain ⟨k, rfl, hfree⟩ := hr.unshift
    by_cases hk : k ≤ n
    · have := h (n - k) ⟨k, (Nat.sub_add_cancel hk).symm ▸ hfree⟩
      omega
    · omega

-- ---------------------------------------------------------------------------
-- Collecting the free indices
-- ---------------------------------------------------------------------------

section
variable (rows : Nat)

mutual
/-- `collect_free`, for a pass that counts `rows` binders around a query's body. -/
def collectFree : Exp → Nat → Finset Nat → Finset Nat
  | .rel n, depth, out => if depth ≤ n then insert (n - depth) out else out
  | .prim _, _, out | .named _, _, out | .ffi _ _, _, out | .none _, _, out => out
  | .con _ _ arg, depth, out => collectFreeOption arg depth out
  | .some _ inner, depth, out => collectFree inner depth out
  | .ffiApp _ _ args, depth, out => collectFreeArgs args depth out
  | .app e1 e2, depth, out | .strcat e1 e2, depth, out | .seq e1 e2, depth, out
  | .setval e1 e2, depth, out | .binop _ _ e1 e2, depth, out | .signalBind e1 e2, depth, out =>
    collectFree e2 depth (collectFree e1 depth out)
  | .abs _ _ _ body, depth, out => collectFree body (depth + 1) out
  | .unop _ e, depth, out | .field e _, depth, out | .write e, depth, out
  | .signalReturn e, depth, out | .signalSource e, depth, out | .dml e _, depth, out
  | .nextval e, depth, out | .uurlify e _ _, depth, out | .javaScript _ e, depth, out
  | .recv e _, depth, out | .sleep e, depth, out | .spawn e, depth, out
  | .serverCall e _ _ _, depth, out => collectFree e depth out
  | .record xets, depth, out => collectFreeFields xets depth out
  | .case disc arms _, depth, out => collectFreeArms arms depth (collectFree disc depth out)
  | .error e _, depth, out => collectFree e depth out
  | .returnBlob blob mimeType _, depth, out =>
    collectFree mimeType depth (collectFreeOption blob depth out)
  | .redirect e _, depth, out => collectFree e depth out
  | .letIn _ _ e1 e2, depth, out => collectFree e2 (depth + 1) (collectFree e1 depth out)
  | .closure _ envs, depth, out => collectFreeList envs depth out
  | .query _ query body initial, depth, out =>
    collectFree initial depth (collectFree body (depth + rows) (collectFree query depth out))
def collectFreeOption : Option Exp → Nat → Finset Nat → Finset Nat
  | .none, _, out => out
  | .some e, depth, out => collectFree e depth out
def collectFreeArgs : List (Exp × Typ) → Nat → Finset Nat → Finset Nat
  | [], _, out => out
  | (e, _) :: args, depth, out => collectFreeArgs args depth (collectFree e depth out)
def collectFreeFields : List (String × Exp × Typ) → Nat → Finset Nat → Finset Nat
  | [], _, out => out
  | (_, e, _) :: xets, depth, out => collectFreeFields xets depth (collectFree e depth out)
def collectFreeArms : List (Pat × Exp) → Nat → Finset Nat → Finset Nat
  | [], _, out => out
  | (p, e) :: arms, depth, out =>
    collectFreeArms arms depth (collectFree e (depth + patDepth p) out)
def collectFreeList : List Exp → Nat → Finset Nat → Finset Nat
  | [], _, out => out
  | e :: es, depth, out => collectFreeList es depth (collectFree e depth out)
end

/-- `free_vars`: the collected indices in ascending order. -/
def freeVars (e : Exp) : List Nat := ascending (collectFree rows e 0 ∅)

/-- The collection over the parts of a node. -/
def collectFreeParts (parts : List (Nat × Exp)) (depth : Nat) (out : Finset Nat) : Finset Nat :=
  parts.foldl (fun out p => collectFree rows p.2 (depth + p.1) out) out

theorem collectFree_args (args : List (Exp × Typ)) (depth : Nat) (out : Finset Nat) :
    collectFreeArgs rows args depth out =
      collectFreeParts rows (args.map fun a => (0, a.1)) depth out := by
  induction args generalizing out with
  | nil => rfl
  | cons a args ih => exact ih _

theorem collectFree_fields (xets : List (String × Exp × Typ)) (depth : Nat) (out : Finset Nat) :
    collectFreeFields rows xets depth out =
      collectFreeParts rows (xets.map fun f => (0, f.2.1)) depth out := by
  induction xets generalizing out with
  | nil => rfl
  | cons f xets ih => exact ih _

theorem collectFree_arms (arms : List (Pat × Exp)) (depth : Nat) (out : Finset Nat) :
    collectFreeArms rows arms depth out =
      collectFreeParts rows (arms.map fun a => (patDepth a.1, a.2)) depth out := by
  induction arms generalizing out with
  | nil => rfl
  | cons a arms ih => exact ih _

theorem collectFree_list (es : List Exp) (depth : Nat) (out : Finset Nat) :
    collectFreeList rows es depth out = collectFreeParts rows (es.map (0, ·)) depth out := by
  induction es generalizing out with
  | nil => rfl
  | cons e es ih => exact ih _

theorem collectFree_parts (h : ∀ n, e ≠ .rel n) (depth : Nat) (out : Finset Nat) :
    collectFree rows e depth out = collectFreeParts rows (e.parts rows) depth out := by
  cases e with
  | rel n => exact absurd rfl (h n)
  | con dk pc arg => cases arg <;> rfl
  | returnBlob blob mimeType t => cases blob <;> rfl
  | ffiApp m x args => exact collectFree_args rows args depth out
  | record xets => exact collectFree_fields rows xets depth out
  | case disc arms info => exact collectFree_arms rows arms depth _
  | closure n envs => exact collectFree_list rows envs depth out
  | _ => rfl

theorem mem_collectFree (e : Exp) : v ∈ collectFree rows e depth out ↔
    v ∈ out ∨ Exp.Occurs rows (v + depth) e := by
  induction e using Exp.induct_parts rows generalizing depth out with
  | h e ih =>
    by_cases he : ∃ n, e = .rel n
    · obtain ⟨n, rfl⟩ := he
      rw [Exp.occurs_iff, collectFree]
      split
      next hle =>
        have hv : v = n - depth ↔ n = v + depth := by omega
        simp [Exp.parts, hv, or_comm]
      next hlt =>
        have hv : n ≠ v + depth := by omega
        simp [Exp.parts, hv]
    · have hne : ∀ n, e ≠ .rel n := fun n h => he ⟨n, h⟩
      have hfold : ∀ parts : List (Nat × Exp), (∀ p ∈ parts, p ∈ e.parts rows) → ∀ out,
          v ∈ collectFreeParts rows parts depth out ↔
            v ∈ out ∨ ∃ p ∈ parts, Exp.Occurs rows (v + depth + p.1) p.2 := by
        intro parts
        induction parts with
        | nil => simp [collectFreeParts]
        | cons p parts ihp =>
          intro hsub out
          have hrest := ihp (fun q hq => hsub q (List.mem_cons_of_mem _ hq))
            (collectFree rows p.2 (depth + p.1) out)
          have hhead : v ∈ collectFree rows p.2 (depth + p.1) out ↔
              v ∈ out ∨ Exp.Occurs rows (v + (depth + p.1)) p.2 :=
            ih p (hsub p List.mem_cons_self)
          rw [collectFreeParts, List.foldl_cons]
          rw [collectFreeParts] at hrest
          rw [hrest, hhead, List.exists_mem_cons_iff, Nat.add_assoc, or_assoc]
      rw [collectFree_parts rows hne, hfold _ (fun p hp => hp), Exp.occurs_iff (e := e)]
      simp [hne]

theorem mem_freeVars (e : Exp) : v ∈ freeVars rows e ↔ Exp.Occurs rows v e := by
  simp [freeVars, mem_collectFree]

instance (v : Nat) (e : Exp) : Decidable (Exp.Occurs rows v e) :=
  decidable_of_iff (v ∈ freeVars rows e) (mem_freeVars rows e)

end

instance (d : Nat) (e : Exp) : Decidable (Exp.Scoped d e) :=
  decidable_of_iff (∀ v ∈ freeVars 2 e, v < d) (by simp [mem_freeVars, Exp.scoped_iff_free])

end UrWeb.Mono
