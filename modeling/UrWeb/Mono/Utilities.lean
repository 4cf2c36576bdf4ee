import Mathlib.Data.List.Basic
import UrWeb.Mono.Syntax

/-!
# Traversals of expressions

The bottom-up rewriting and the walks that the Mono passes share. The passes
modelled here leave types alone, so only the function on expressions is a
parameter.
-/

namespace UrWeb.Mono

section
variable (fe : Exp → Exp)

mutual
def Exp.map : Exp → Exp
  | .prim p => fe (.prim p)
  | .rel n => fe (.rel n)
  | .named n => fe (.named n)
  | .con dk pc arg => fe (.con dk pc (Exp.mapOption arg))
  | .none t => fe (.none t)
  | .some t e => fe (.some t e.map)
  | .ffi m x => fe (.ffi m x)
  | .ffiApp m x args => fe (.ffiApp m x (Exp.mapArgs args))
  | .app e1 e2 => fe (.app e1.map e2.map)
  | .abs x dom ran body => fe (.abs x dom ran body.map)
  | .unop s e => fe (.unop s e.map)
  | .binop bi s e1 e2 => fe (.binop bi s e1.map e2.map)
  | .record xets => fe (.record (Exp.mapFields xets))
  | .field e x => fe (.field e.map x)
  | .case disc arms info => fe (.case disc.map (Exp.mapArms arms) info)
  | .strcat e1 e2 => fe (.strcat e1.map e2.map)
  | .error e t => fe (.error e.map t)
  | .returnBlob blob mimeType t => fe (.returnBlob (Exp.mapOption blob) mimeType.map t)
  | .redirect e t => fe (.redirect e.map t)
  | .write e => fe (.write e.map)
  | .seq e1 e2 => fe (.seq e1.map e2.map)
  | .letIn x t e1 e2 => fe (.letIn x t e1.map e2.map)
  | .closure n envs => fe (.closure n (Exp.mapList envs))
  | .query qm q body initial => fe (.query qm q.map body.map initial.map)
  | .dml e fm => fe (.dml e.map fm)
  | .nextval e => fe (.nextval e.map)
  | .setval e1 e2 => fe (.setval e1.map e2.map)
  | .uurlify e t b => fe (.uurlify e.map t b)
  | .javaScript mode e => fe (.javaScript mode e.map)
  | .signalReturn e => fe (.signalReturn e.map)
  | .signalBind e1 e2 => fe (.signalBind e1.map e2.map)
  | .signalSource e => fe (.signalSource e.map)
  | .serverCall e t eff fm => fe (.serverCall e.map t eff fm)
  | .recv e t => fe (.recv e.map t)
  | .sleep e => fe (.sleep e.map)
  | .spawn e => fe (.spawn e.map)
def Exp.mapOption : Option Exp → Option Exp
  | .none => .none
  | .some e => .some e.map
def Exp.mapArgs : List (Exp × Typ) → List (Exp × Typ)
  | [] => []
  | (e, t) :: args => (e.map, t) :: Exp.mapArgs args
def Exp.mapFields : List (String × Exp × Typ) → List (String × Exp × Typ)
  | [] => []
  | (x, e, t) :: xets => (x, e.map, t) :: Exp.mapFields xets
def Exp.mapArms : List (Pat × Exp) → List (Pat × Exp)
  | [] => []
  | (p, e) :: arms => (p, e.map) :: Exp.mapArms arms
def Exp.mapList : List Exp → List Exp
  | [] => []
  | e :: es => e.map :: Exp.mapList es
end

def ValBinding.map (vi : ValBinding) : ValBinding := { vi with e := vi.e.map fe }

def Policy.map : Policy → Policy
  | .client e => .client (e.map fe)
  | .insert e => .insert (e.map fe)
  | .delete e => .delete (e.map fe)
  | .update e => .update (e.map fe)
  | .sequence e => .sequence (e.map fe)

def Decl.map : Decl → Decl
  | .val vi => .val (vi.map fe)
  | .valRec vis => .valRec (vis.map (ValBinding.map fe))
  | .table s xts pe ce => .table s xts (pe.map fe) (ce.map fe)
  | .view s xts e => .view s xts (e.map fe)
  | .task e1 e2 => .task (e1.map fe) (e2.map fe)
  | .policy p => .policy (p.map fe)
  | d => d

end

-- ---------------------------------------------------------------------------
-- One level at a time
-- ---------------------------------------------------------------------------

def Exp.children : Exp → List Exp
  | .prim _ | .rel _ | .named _ | .none _ | .ffi _ _ => []
  | .con _ _ arg => arg.toList
  | .ffiApp _ _ args => args.map Prod.fst
  | .app e1 e2 | .binop _ _ e1 e2 | .strcat e1 e2 | .seq e1 e2 | .letIn _ _ e1 e2
  | .setval e1 e2 | .signalBind e1 e2 => [e1, e2]
  | .some _ e | .abs _ _ _ e | .unop _ e | .field e _ | .error e _ | .redirect e _ | .write e
  | .dml e _ | .nextval e | .uurlify e _ _ | .javaScript _ e | .signalReturn e | .signalSource e
  | .serverCall e _ _ _ | .recv e _ | .sleep e | .spawn e => [e]
  | .record xets => xets.map fun f => f.2.1
  | .case disc arms _ => disc :: arms.map Prod.snd
  | .returnBlob blob mimeType _ => blob.toList ++ [mimeType]
  | .closure _ envs => envs
  | .query _ q body initial => [q, body, initial]

/-- The parts of a node; the body of a script only if `scripts`. -/
def Exp.entered (scripts : Bool) : Exp → List Exp
  | .javaScript _ e => if scripts then [e] else []
  | e => e.children

section
variable (scripts : Bool)

mutual
/-- The nodes with their depths in the order of a walk, which enters the bodies of
scripts only if `scripts`. -/
def Exp.nodesAt (depth : Nat) (e : Exp) : List (Nat × Exp) :=
  (depth, e) :: match e with
    | .prim _ | .rel _ | .named _ | .none _ | .ffi _ _ => []
    | .con _ _ arg => Exp.optionNodesAt (depth + 1) arg
    | .ffiApp _ _ args => Exp.argNodesAt (depth + 1) args
    | .app e1 e2 | .binop _ _ e1 e2 | .strcat e1 e2 | .seq e1 e2 | .letIn _ _ e1 e2
    | .setval e1 e2 | .signalBind e1 e2 => e1.nodesAt (depth + 1) ++ e2.nodesAt (depth + 1)
    | .some _ e | .abs _ _ _ e | .unop _ e | .field e _ | .error e _ | .redirect e _ | .write e
    | .dml e _ | .nextval e | .uurlify e _ _ | .signalReturn e | .signalSource e
    | .serverCall e _ _ _ | .recv e _ | .sleep e | .spawn e => e.nodesAt (depth + 1)
    | .javaScript _ e => if scripts then e.nodesAt (depth + 1) else []
    | .record xets => Exp.fieldNodesAt (depth + 1) xets
    | .case disc arms _ => disc.nodesAt (depth + 1) ++ Exp.armNodesAt (depth + 1) arms
    | .returnBlob blob mimeType _ =>
      Exp.optionNodesAt (depth + 1) blob ++ mimeType.nodesAt (depth + 1)
    | .closure _ envs => Exp.listNodesAt (depth + 1) envs
    | .query _ q body initial =>
      q.nodesAt (depth + 1) ++ (body.nodesAt (depth + 1) ++ initial.nodesAt (depth + 1))
def Exp.optionNodesAt (depth : Nat) : Option Exp → List (Nat × Exp)
  | .none => []
  | .some e => e.nodesAt depth
def Exp.argNodesAt (depth : Nat) : List (Exp × Typ) → List (Nat × Exp)
  | [] => []
  | (e, _) :: args => e.nodesAt depth ++ Exp.argNodesAt depth args
def Exp.fieldNodesAt (depth : Nat) : List (String × Exp × Typ) → List (Nat × Exp)
  | [] => []
  | (_, e, _) :: xets => e.nodesAt depth ++ Exp.fieldNodesAt depth xets
def Exp.armNodesAt (depth : Nat) : List (Pat × Exp) → List (Nat × Exp)
  | [] => []
  | (_, e) :: arms => e.nodesAt depth ++ Exp.armNodesAt depth arms
def Exp.listNodesAt (depth : Nat) : List Exp → List (Nat × Exp)
  | [] => []
  | e :: es => e.nodesAt depth ++ Exp.listNodesAt depth es
end

def Exp.nodes (e : Exp) : List Exp := (e.nodesAt scripts 0).map Prod.snd

end

section
variable (g : Exp → Exp)

def Exp.mapChildren : Exp → Exp
  | .con dk pc arg => .con dk pc (arg.map g)
  | .some t e => .some t (g e)
  | .ffiApp m x args => .ffiApp m x (args.map fun a => (g a.1, a.2))
  | .app e1 e2 => .app (g e1) (g e2)
  | .abs x dom ran body => .abs x dom ran (g body)
  | .unop s e => .unop s (g e)
  | .binop bi s e1 e2 => .binop bi s (g e1) (g e2)
  | .record xets => .record (xets.map fun f => (f.1, g f.2.1, f.2.2))
  | .field e x => .field (g e) x
  | .case disc arms info => .case (g disc) (arms.map fun a => (a.1, g a.2)) info
  | .strcat e1 e2 => .strcat (g e1) (g e2)
  | .error e t => .error (g e) t
  | .returnBlob blob mimeType t => .returnBlob (blob.map g) (g mimeType) t
  | .redirect e t => .redirect (g e) t
  | .write e => .write (g e)
  | .seq e1 e2 => .seq (g e1) (g e2)
  | .letIn x t e1 e2 => .letIn x t (g e1) (g e2)
  | .closure n envs => .closure n (envs.map g)
  | .query qm q body initial => .query qm (g q) (g body) (g initial)
  | .dml e fm => .dml (g e) fm
  | .nextval e => .nextval (g e)
  | .setval e1 e2 => .setval (g e1) (g e2)
  | .uurlify e t b => .uurlify (g e) t b
  | .javaScript mode e => .javaScript mode (g e)
  | .signalReturn e => .signalReturn (g e)
  | .signalBind e1 e2 => .signalBind (g e1) (g e2)
  | .signalSource e => .signalSource (g e)
  | .serverCall e t eff fm => .serverCall (g e) t eff fm
  | .recv e t => .recv (g e) t
  | .sleep e => .sleep (g e)
  | .spawn e => .spawn (g e)
  | e => e

end

/-- Induction over an expression by its immediate parts. -/
theorem Exp.induct_children {P : Exp → Prop} (h : ∀ e, (∀ c ∈ e.children, P c) → P e) (e : Exp) :
    P e := by
  induction e with
  | ffiApp m x args ih =>
    refine h _ fun c hc => ?_
    obtain ⟨a, ha, rfl⟩ := List.mem_map.mp hc
    exact ih a ha
  | record xets ih =>
    refine h _ fun c hc => ?_
    obtain ⟨f, hf, rfl⟩ := List.mem_map.mp hc
    exact ih f hf
  | case disc arms info ihd ih =>
    refine h _ (List.forall_mem_cons.mpr ⟨ihd, fun c hc => ?_⟩)
    obtain ⟨a, ha, rfl⟩ := List.mem_map.mp hc
    exact ih a ha
  | con dk pc arg ih => exact h _ fun c hc => ih c (Option.mem_toList.mp hc)
  | returnBlob blob mimeType t ih ihm =>
    refine h _ fun c hc => ?_
    rcases List.mem_append.mp hc with hc | hc
    · exact ih c (Option.mem_toList.mp hc)
    · exact List.mem_singleton.mp hc ▸ ihm
  | closure n envs ih => exact h _ ih
  | query qm q body initial ihq ihb ihi =>
    exact h _ (by simpa [Exp.children] using ⟨ihq, ihb, ihi⟩)
  | app _ _ ih1 ih2 | binop _ _ _ _ ih1 ih2 | strcat _ _ ih1 ih2 | seq _ _ ih1 ih2
  | letIn _ _ _ _ ih1 ih2 | setval _ _ ih1 ih2 | signalBind _ _ ih1 ih2 =>
    exact h _ (by simpa [Exp.children] using ⟨ih1, ih2⟩)
  | some _ _ ih | abs _ _ _ _ ih | unop _ _ ih | field _ _ ih | error _ _ ih | redirect _ _ ih
  | write _ ih | dml _ _ ih | nextval _ ih | uurlify _ _ _ ih | javaScript _ _ ih
  | signalReturn _ ih | signalSource _ ih | serverCall _ _ _ _ ih | recv _ _ ih | sleep _ ih
  | spawn _ ih => exact h _ (by simpa [Exp.children] using ih)
  | prim | rel | named | none | ffi => exact h _ (by simp [Exp.children])

section
variable (scripts : Bool)

theorem Exp.optionNodesAt_eq (depth : Nat) (arg : Option Exp) :
    Exp.optionNodesAt scripts depth arg = arg.toList.flatMap (Exp.nodesAt scripts depth) := by
  cases arg <;> simp [Exp.optionNodesAt]

theorem Exp.argNodesAt_eq (depth : Nat) (args : List (Exp × Typ)) :
    Exp.argNodesAt scripts depth args = (args.map Prod.fst).flatMap (Exp.nodesAt scripts depth) := by
  induction args with
  | nil => rfl
  | cons _ _ ih => simp [Exp.argNodesAt, ih]

theorem Exp.fieldNodesAt_eq (depth : Nat) (xets : List (String × Exp × Typ)) :
    Exp.fieldNodesAt scripts depth xets =
      (xets.map fun f => f.2.1).flatMap (Exp.nodesAt scripts depth) := by
  induction xets with
  | nil => rfl
  | cons _ _ ih => simp [Exp.fieldNodesAt, ih]

theorem Exp.armNodesAt_eq (depth : Nat) (arms : List (Pat × Exp)) :
    Exp.armNodesAt scripts depth arms = (arms.map Prod.snd).flatMap (Exp.nodesAt scripts depth) := by
  induction arms with
  | nil => rfl
  | cons _ _ ih => simp [Exp.armNodesAt, ih]

theorem Exp.listNodesAt_eq (depth : Nat) (es : List Exp) :
    Exp.listNodesAt scripts depth es = es.flatMap (Exp.nodesAt scripts depth) := by
  induction es with
  | nil => rfl
  | cons _ _ ih => simp [Exp.listNodesAt, ih]

theorem Exp.nodesAt_eq (depth : Nat) (e : Exp) : e.nodesAt scripts depth =
    (depth, e) :: (e.entered scripts).flatMap (Exp.nodesAt scripts (depth + 1)) := by
  cases e with
  | javaScript mode e => cases scripts <;> simp [Exp.nodesAt, Exp.entered]
  | _ => simp [Exp.nodesAt, Exp.entered, Exp.children, Exp.optionNodesAt_eq, Exp.argNodesAt_eq,
      Exp.fieldNodesAt_eq, Exp.armNodesAt_eq, Exp.listNodesAt_eq]

theorem Exp.entered_subset {scripts : Bool} {e : Exp} : e.entered scripts ⊆ e.children := by
  cases e with
  | javaScript mode e => cases scripts <;> simp [Exp.entered, Exp.children]
  | _ => exact List.Subset.refl _

/-- The depth at which a walk starts does not change what it visits. -/
theorem Exp.nodesAt_nodes (depth : Nat) (e : Exp) :
    (e.nodesAt scripts depth).map Prod.snd = e.nodes scripts := by
  rw [Exp.nodes]
  generalize 0 = depth'
  induction e using Exp.induct_children generalizing depth depth' with
  | h e ih =>
    rw [Exp.nodesAt_eq, Exp.nodesAt_eq, List.map_cons, List.map_cons, List.map_flatMap,
      List.map_flatMap]
    congr 1
    exact List.flatMap_congr fun c hc => ih c (Exp.entered_subset hc) _ _

theorem Exp.nodes_eq (e : Exp) :
    e.nodes scripts = e :: (e.entered scripts).flatMap (Exp.nodes scripts) := by
  rw [Exp.nodes, Exp.nodesAt_eq, List.map_cons, List.map_flatMap]
  congr 1
  exact List.flatMap_congr fun c _ => Exp.nodesAt_nodes scripts _ c

theorem Exp.self_mem_nodes (e : Exp) : e ∈ e.nodes scripts := by
  rw [Exp.nodes_eq]
  exact List.mem_cons_self

theorem Exp.nodes_trans {scripts : Bool} {e e' : Exp} (h : e' ∈ e.nodes scripts) :
    e'.nodes scripts ⊆ e.nodes scripts := by
  induction e using Exp.induct_children with
  | h e ih =>
    rw [Exp.nodes_eq, List.mem_cons, List.mem_flatMap] at h
    obtain rfl | ⟨c, hc, h⟩ := h
    · exact List.Subset.refl _
    · rw [Exp.nodes_eq scripts e]
      exact fun x hx => List.mem_cons_of_mem _
        (List.mem_flatMap.mpr ⟨c, hc, ih c (Exp.entered_subset hc) h hx⟩)

end

section
variable (fe : Exp → Exp)

theorem Exp.mapOption_eq (arg : Option Exp) : Exp.mapOption fe arg = arg.map (Exp.map fe) := by
  cases arg <;> rfl

theorem Exp.mapArgs_eq (args : List (Exp × Typ)) :
    Exp.mapArgs fe args = args.map fun a => (a.1.map fe, a.2) := by
  induction args with
  | nil => rfl
  | cons _ _ ih => simp [Exp.mapArgs, ih]

theorem Exp.mapFields_eq (xets : List (String × Exp × Typ)) :
    Exp.mapFields fe xets = xets.map fun f => (f.1, f.2.1.map fe, f.2.2) := by
  induction xets with
  | nil => rfl
  | cons _ _ ih => simp [Exp.mapFields, ih]

theorem Exp.mapArms_eq (arms : List (Pat × Exp)) :
    Exp.mapArms fe arms = arms.map fun a => (a.1, a.2.map fe) := by
  induction arms with
  | nil => rfl
  | cons _ _ ih => simp [Exp.mapArms, ih]

theorem Exp.mapList_eq (es : List Exp) : Exp.mapList fe es = es.map (Exp.map fe) := by
  induction es with
  | nil => rfl
  | cons _ _ ih => simp [Exp.mapList, ih]

/-- Children first, then the node. -/
theorem Exp.map_eq (e : Exp) : e.map fe = fe (e.mapChildren (Exp.map fe)) := by
  cases e <;> simp only [Exp.map, Exp.mapChildren, Exp.mapOption_eq, Exp.mapArgs_eq,
    Exp.mapFields_eq, Exp.mapArms_eq, Exp.mapList_eq]

end

end UrWeb.Mono
