import UrWeb.Core.Syntax

/-!
# Folding over constructors and expressions

The traversals that the Core passes share: every node is visited once, parents
before children, left to right.
-/

namespace UrWeb.Core

mutual
def Constructor.nodes (c : Constructor) : List Constructor :=
  c :: match c with
    | .rel _ | .named _ | .ffi _ _ | .name _ | .unit | .map _ _ => []
    | .tFun c1 c2 | .app c1 c2 | .concat c1 c2 => c1.nodes ++ c2.nodes
    | .tRecord c | .proj c _ | .tCFun _ _ c | .abs _ _ c | .kAbs _ c | .kApp c _ | .tKFun _ c =>
      c.nodes
    | .record _ fields => Constructor.fieldNodes fields
    | .tuple cs => Constructor.listNodes cs
def Constructor.fieldNodes : List (Constructor × Constructor) → List Constructor
  | [] => []
  | (c1, c2) :: fields => (c1.nodes ++ c2.nodes) ++ Constructor.fieldNodes fields
def Constructor.listNodes : List Constructor → List Constructor
  | [] => []
  | c :: cs => c.nodes ++ Constructor.listNodes cs
end

def Constructor.fold (visit : Constructor → σ → σ) (c : Constructor) (st : σ) : σ :=
  c.nodes.foldl (fun st c => visit c st) st

mutual
/-- The nodes in the order of the visits. -/
def Expression.nodes (e : Expression) : List Expression :=
  e :: match e with
    | .prim _ | .rel _ | .named _ | .ffi _ _ => []
    | .constructor _ _ _ payload => Expression.payloadNodes payload
    | .ffiApp _ _ args => Expression.argNodes args
    | .app e1 e2 | .concat e1 _ e2 _ | .letIn _ _ e1 e2 => e1.nodes ++ e2.nodes
    | .abs _ _ _ e | .cApp e _ | .cAbs _ _ e | .kAbs _ e | .kApp e _ | .field e _ _ | .cut e _ _
    | .cutMulti e _ _ | .write e => e.nodes
    | .record fields => Expression.fieldNodes fields
    | .case disc arms _ => disc.nodes ++ Expression.armNodes arms
    | .closure _ es | .serverCall _ es _ _ => Expression.listNodes es
def Expression.payloadNodes : Option Expression → List Expression
  | none => []
  | some e => e.nodes
def Expression.argNodes : List (Expression × Constructor) → List Expression
  | [] => []
  | (e, _) :: args => e.nodes ++ Expression.argNodes args
def Expression.fieldNodes : List (Constructor × Expression × Constructor) → List Expression
  | [] => []
  | (_, e, _) :: fields => e.nodes ++ Expression.fieldNodes fields
def Expression.armNodes : List (Pattern × Expression) → List Expression
  | [] => []
  | (_, e) :: arms => e.nodes ++ Expression.armNodes arms
def Expression.listNodes : List Expression → List Expression
  | [] => []
  | e :: es => e.nodes ++ Expression.listNodes es
end

def Expression.fold (visit : Expression → σ → σ) (e : Expression) (st : σ) : σ :=
  e.nodes.foldl (fun st e => visit e st) st

section
variable (fe : Expression → Expression)

mutual
/-- Children first, then the node. Types are left alone. -/
def Expression.map : Expression → Expression
  | .prim p => fe (.prim p)
  | .rel n => fe (.rel n)
  | .named n => fe (.named n)
  | .constructor dk pc args payload => fe (.constructor dk pc args (Expression.mapPayload payload))
  | .ffi m x => fe (.ffi m x)
  | .ffiApp m x args => fe (.ffiApp m x (Expression.mapArgs args))
  | .app e1 e2 => fe (.app e1.map e2.map)
  | .abs x dom ran body => fe (.abs x dom ran body.map)
  | .cApp e c => fe (.cApp e.map c)
  | .cAbs x k body => fe (.cAbs x k body.map)
  | .kAbs x body => fe (.kAbs x body.map)
  | .kApp e k => fe (.kApp e.map k)
  | .record fields => fe (.record (Expression.mapFields fields))
  | .field e c info => fe (.field e.map c info)
  | .concat e1 c1 e2 c2 => fe (.concat e1.map c1 e2.map c2)
  | .cut e c info => fe (.cut e.map c info)
  | .cutMulti e c info => fe (.cutMulti e.map c info)
  | .case disc arms info => fe (.case disc.map (Expression.mapArms arms) info)
  | .write e => fe (.write e.map)
  | .closure n captured => fe (.closure n (Expression.mapList captured))
  | .letIn x t e1 e2 => fe (.letIn x t e1.map e2.map)
  | .serverCall n args result fm => fe (.serverCall n (Expression.mapList args) result fm)
def Expression.mapPayload : Option Expression → Option Expression
  | none => none
  | some e => some e.map
def Expression.mapArgs : List (Expression × Constructor) → List (Expression × Constructor)
  | [] => []
  | (e, t) :: args => (e.map, t) :: Expression.mapArgs args
def Expression.mapFields :
    List (Constructor × Expression × Constructor) → List (Constructor × Expression × Constructor)
  | [] => []
  | (c, e, t) :: fields => (c, e.map, t) :: Expression.mapFields fields
def Expression.mapArms : List (Pattern × Expression) → List (Pattern × Expression)
  | [] => []
  | (p, e) :: arms => (p, e.map) :: Expression.mapArms arms
def Expression.mapList : List Expression → List Expression
  | [] => []
  | e :: es => e.map :: Expression.mapList es
end

end

-- ---------------------------------------------------------------------------
-- One level at a time
-- ---------------------------------------------------------------------------

def Expression.children : Expression → List Expression
  | .prim _ | .rel _ | .named _ | .ffi _ _ => []
  | .constructor _ _ _ payload => payload.toList
  | .ffiApp _ _ args => args.map Prod.fst
  | .app e1 e2 | .concat e1 _ e2 _ | .letIn _ _ e1 e2 => [e1, e2]
  | .abs _ _ _ e | .cApp e _ | .cAbs _ _ e | .kAbs _ e | .kApp e _ | .field e _ _ | .cut e _ _
  | .cutMulti e _ _ | .write e => [e]
  | .record fields => fields.map fun f => f.2.1
  | .case disc arms _ => disc :: arms.map Prod.snd
  | .closure _ es | .serverCall _ es _ _ => es

/-- Induction over an expression by its immediate parts. -/
theorem Expression.induct_children {P : Expression → Prop}
    (h : ∀ e, (∀ c ∈ e.children, P c) → P e) (e : Expression) : P e := by
  induction e with
  | ffiApp m x args ih =>
    refine h _ fun c hc => ?_
    obtain ⟨a, ha, rfl⟩ := List.mem_map.mp hc
    exact ih a ha
  | record fields ih =>
    refine h _ fun c hc => ?_
    obtain ⟨f, hf, rfl⟩ := List.mem_map.mp hc
    exact ih f hf
  | case disc arms info ihd ih =>
    refine h _ (List.forall_mem_cons.mpr ⟨ihd, fun c hc => ?_⟩)
    obtain ⟨a, ha, rfl⟩ := List.mem_map.mp hc
    exact ih a ha
  | constructor dk pc args payload ih => exact h _ fun c hc => ih c (Option.mem_toList.mp hc)
  | closure n captured ih => exact h _ ih
  | serverCall n args result fm ih => exact h _ ih
  | app _ _ ih1 ih2 | concat _ _ _ _ ih1 ih2 | letIn _ _ _ _ ih1 ih2 =>
    exact h _ (by simpa [Expression.children] using ⟨ih1, ih2⟩)
  | abs _ _ _ _ ih | cApp _ _ ih | cAbs _ _ _ ih | kAbs _ _ ih | kApp _ _ ih | field _ _ _ ih
  | cut _ _ _ ih | cutMulti _ _ _ ih | write _ ih =>
    exact h _ (by simpa [Expression.children] using ih)
  | prim | rel | named | ffi => exact h _ (by simp [Expression.children])

theorem Expression.argNodes_eq (args : List (Expression × Constructor)) :
    Expression.argNodes args = (args.map Prod.fst).flatMap Expression.nodes := by
  induction args with
  | nil => rfl
  | cons _ _ ih => simp [Expression.argNodes, ih]

theorem Expression.fieldNodes_eq (fields : List (Constructor × Expression × Constructor)) :
    Expression.fieldNodes fields = (fields.map fun f => f.2.1).flatMap Expression.nodes := by
  induction fields with
  | nil => rfl
  | cons _ _ ih => simp [Expression.fieldNodes, ih]

theorem Expression.armNodes_eq (arms : List (Pattern × Expression)) :
    Expression.armNodes arms = (arms.map Prod.snd).flatMap Expression.nodes := by
  induction arms with
  | nil => rfl
  | cons _ _ ih => simp [Expression.armNodes, ih]

theorem Expression.listNodes_eq (es : List Expression) :
    Expression.listNodes es = es.flatMap Expression.nodes := by
  induction es with
  | nil => rfl
  | cons _ _ ih => simp [Expression.listNodes, ih]

theorem Expression.payloadNodes_eq (payload : Option Expression) :
    Expression.payloadNodes payload = payload.toList.flatMap Expression.nodes := by
  cases payload <;> simp [Expression.payloadNodes]

theorem Expression.nodes_eq (e : Expression) :
    e.nodes = e :: e.children.flatMap Expression.nodes := by
  cases e <;> simp [Expression.nodes, Expression.children, Expression.argNodes_eq,
    Expression.fieldNodes_eq, Expression.armNodes_eq, Expression.listNodes_eq,
    Expression.payloadNodes_eq]

theorem Expression.self_mem_nodes (e : Expression) : e ∈ e.nodes := by
  rw [Expression.nodes_eq]
  exact List.mem_cons_self

theorem Expression.nodes_trans {e e' : Expression} (h : e' ∈ e.nodes) : e'.nodes ⊆ e.nodes := by
  induction e using Expression.induct_children with
  | h e ih =>
    rw [Expression.nodes_eq, List.mem_cons, List.mem_flatMap] at h
    obtain rfl | ⟨c, hc, h⟩ := h
    · exact List.Subset.refl _
    · rw [Expression.nodes_eq e]
      exact fun x hx => List.mem_cons_of_mem _ (List.mem_flatMap.mpr ⟨c, hc, ih c hc h hx⟩)

theorem Expression.child_mem_nodes {e c : Expression} (h : c ∈ e.children) : c ∈ e.nodes := by
  rw [Expression.nodes_eq]
  exact List.mem_cons_of_mem _ (List.mem_flatMap.mpr ⟨c, h, c.self_mem_nodes⟩)

section
variable (fe : Expression → Expression)

theorem Expression.mapPayload_eq (payload : Option Expression) :
    Expression.mapPayload fe payload = payload.map (Expression.map fe) := by
  cases payload <;> rfl

theorem Expression.mapArgs_eq (args : List (Expression × Constructor)) :
    Expression.mapArgs fe args = args.map fun a => (a.1.map fe, a.2) := by
  induction args with
  | nil => rfl
  | cons _ _ ih => simp [Expression.mapArgs, ih]

theorem Expression.mapFields_eq (fields : List (Constructor × Expression × Constructor)) :
    Expression.mapFields fe fields = fields.map fun f => (f.1, f.2.1.map fe, f.2.2) := by
  induction fields with
  | nil => rfl
  | cons _ _ ih => simp [Expression.mapFields, ih]

theorem Expression.mapArms_eq (arms : List (Pattern × Expression)) :
    Expression.mapArms fe arms = arms.map fun a => (a.1, a.2.map fe) := by
  induction arms with
  | nil => rfl
  | cons _ _ ih => simp [Expression.mapArms, ih]

theorem Expression.mapList_eq (es : List Expression) :
    Expression.mapList fe es = es.map (Expression.map fe) := by
  induction es with
  | nil => rfl
  | cons _ _ ih => simp [Expression.mapList, ih]

end

section
variable {fe : Expression → Expression} (h : ∀ e, (fe e).children ⊆ e.children)
include h

theorem Expression.children_map (e : Expression) :
    (e.map fe).children ⊆ e.children.map (Expression.map fe) := by
  cases e <;> refine List.Subset.trans (h _) ?_ <;>
    simp [Expression.children, Expression.mapPayload_eq, Expression.mapArgs_eq,
      Expression.mapFields_eq, Expression.mapArms_eq, Expression.mapList_eq, Function.comp_def,
      Option.toList_map]

/-- A rewriting that adds no parts: every node of the result is a rewritten node. -/
theorem Expression.nodes_map {e x : Expression} (hx : x ∈ (e.map fe).nodes) :
    ∃ y ∈ e.nodes, x = y.map fe := by
  induction e using Expression.induct_children with
  | h e ih =>
    rw [Expression.nodes_eq, List.mem_cons, List.mem_flatMap] at hx
    obtain rfl | ⟨c, hc, hx⟩ := hx
    · exact ⟨e, e.self_mem_nodes, rfl⟩
    · obtain ⟨c', hc', rfl⟩ := List.mem_map.mp (Expression.children_map h e hc)
      obtain ⟨y, hy, rfl⟩ := ih c' hc' hx
      exact ⟨y, Expression.nodes_trans (Expression.child_mem_nodes hc') hy, rfl⟩

end

end UrWeb.Core
