import UrWeb.Core.DeadCodeElimination

/-!
# The walks of the Core shaker saturate

Every walk adds to the mark sets exactly what the definition maps reach from
the ids it sees, once the fuel covers the definitions. An expression walk sees
every id of the expression except those in the constructor of a built value.
-/

namespace UrWeb.Core.DeadCodeElimination

open UrWeb.Core Saturation

/-- What a walk of an expression sees. -/
abbrev walked (e : Expression) : List Ref := e.refsWith fun _ => []

abbrev walkedList (es : List Expression) : List Ref := Expression.listRefs (fun _ => []) es

def Defs.conRefs (defs : Defs) (n : Nat) : List Ref :=
  ((defs.constructorDefs n).map Constructor.listRefs).getD []

def ExpressionDef.refs (d : ExpressionDef) : List Ref :=
  Constructor.listRefs d.constructorDeps ++ walkedList d.expressionDeps ++
    d.mutualGroupIds.map .exp

def Defs.expRefs (defs : Defs) (n : Nat) : List Ref :=
  ((defs.expressionDefs n).map ExpressionDef.refs).getD []

/-- What the maps hold for an id. -/
def Defs.succ (defs : Defs) : Ref → Set Ref
  | .con n => refSet (defs.conRefs n)
  | .exp n => refSet (defs.expRefs n)

-- ---------------------------------------------------------------------------
-- The walks saturate
-- ---------------------------------------------------------------------------

section
variable {succ : Ref → Set Ref} {Q : Marks → Prop} {v : Visit}

theorem collectFields_pass (fields : List (Constructor × Constructor))
    (h : ∀ f ∈ fields,
      Pass succ Marks.nodes Q (fun s => collectNamedFromConstructor v s f.1) (refSet f.1.refs) ∧
      Pass succ Marks.nodes Q (fun s => collectNamedFromConstructor v s f.2) (refSet f.2.refs)) :
    Pass succ Marks.nodes Q (fun s => collectFields v s fields)
      (refSet (Constructor.fieldRefs fields)) := by
  induction fields with
  | nil => simpa [collectFields, Constructor.fieldRefs] using Pass.rfl
  | cons f fields ih =>
    simp only [collectFields, Constructor.fieldRefs, refSet_append]
    obtain ⟨h1, h2⟩ := h f (by simp)
    exact (h1.comp h2).comp (ih fun g hg => h g (by simp [hg]))

theorem collectConstructors_pass_of (cs : List Constructor)
    (h : ∀ c ∈ cs,
      Pass succ Marks.nodes Q (fun s => collectNamedFromConstructor v s c) (refSet c.refs)) :
    Pass succ Marks.nodes Q (fun s => collectConstructors v s cs)
      (refSet (Constructor.listRefs cs)) := by
  induction cs with
  | nil => simpa [collectConstructors, Constructor.listRefs] using Pass.rfl
  | cons c cs ih =>
    simp only [collectConstructors, Constructor.listRefs, refSet_append]
    exact (h c (by simp)).comp (ih fun d hd => h d (by simp [hd]))

theorem collectNamedFromConstructor_pass (hc : ∀ n, Pass succ Marks.nodes Q (v.con n) {.con n})
    (c : Constructor) :
    Pass succ Marks.nodes Q (fun s => collectNamedFromConstructor v s c) (refSet c.refs) := by
  induction c with
  | named n =>
    simp only [collectNamedFromConstructor, Constructor.refs, refSet_single]
    exact hc n
  | tFun c1 c2 ih1 ih2 | app c1 c2 ih1 ih2 | concat c1 c2 ih1 ih2 =>
    simp only [collectNamedFromConstructor, Constructor.refs, refSet_append]
    exact ih1.comp ih2
  | tRecord c ih | proj c _ ih | tCFun _ _ c ih | abs _ _ c ih | kAbs _ c ih | tKFun _ c ih
  | kApp c _ ih => exact ih
  | record k fields ih => exact collectFields_pass fields ih
  | tuple cs ih => exact collectConstructors_pass_of cs ih
  | rel | ffi | name | unit | map =>
    simpa [collectNamedFromConstructor, Constructor.refs] using Pass.rfl

theorem collectConstructors_pass (hc : ∀ n, Pass succ Marks.nodes Q (v.con n) {.con n})
    (cs : List Constructor) :
    Pass succ Marks.nodes Q (fun s => collectConstructors v s cs)
      (refSet (Constructor.listRefs cs)) :=
  collectConstructors_pass_of cs fun c _ => collectNamedFromConstructor_pass hc c

theorem collectPatternConstructor_pass (hc : ∀ n, Pass succ Marks.nodes Q (v.con n) {.con n})
    (pc : PatternConstructor) :
    Pass succ Marks.nodes Q (fun s => collectPatternConstructor v s pc) (refSet pc.refs) := by
  unfold collectPatternConstructor PatternConstructor.refs
  cases pc with
  | var => simpa using Pass.rfl
  | ffi m d ps c arg kind =>
    cases arg with
    | none => simpa using Pass.rfl
    | some t => exact collectNamedFromConstructor_pass hc t

theorem collectPatternFields_pass (hc : ∀ n, Pass succ Marks.nodes Q (v.con n) {.con n})
    (fields : List (String × Pattern × Constructor))
    (h : ∀ f ∈ fields,
      Pass succ Marks.nodes Q (fun s => collectNamedFromPattern v s f.2.1) (refSet f.2.1.refs)) :
    Pass succ Marks.nodes Q (fun s => collectPatternFields v s fields)
      (refSet (Pattern.fieldRefs fields)) := by
  induction fields with
  | nil => simpa [collectPatternFields, Pattern.fieldRefs] using Pass.rfl
  | cons f fields ih =>
    simp only [collectPatternFields, Pattern.fieldRefs, refSet_append]
    exact ((h f (by simp)).comp (collectNamedFromConstructor_pass hc f.2.2)).comp
      (ih fun g hg => h g (by simp [hg]))

theorem collectNamedFromPattern_pass (hc : ∀ n, Pass succ Marks.nodes Q (v.con n) {.con n})
    (p : Pattern) :
    Pass succ Marks.nodes Q (fun s => collectNamedFromPattern v s p) (refSet p.refs) := by
  induction p with
  | var x t => exact collectNamedFromConstructor_pass hc t
  | prim p => simpa [collectNamedFromPattern, Pattern.refs] using Pass.rfl
  | constructor dk pc args sub ih =>
    simp only [collectNamedFromPattern, Pattern.refs, refSet_append]
    have hsub : Pass succ Marks.nodes Q (fun s => collectSubPattern v s sub)
        (refSet (Pattern.subRefs sub)) := by
      cases sub with
      | none => simpa [collectSubPattern, Pattern.subRefs] using Pass.rfl
      | some p => exact ih p rfl
    exact ((collectPatternConstructor_pass hc pc).comp (collectConstructors_pass hc args)).comp hsub
  | record fields ih => exact collectPatternFields_pass hc fields ih

theorem collectPayload_pass (payload : Option Expression)
    (h : ∀ e ∈ payload,
      Pass succ Marks.nodes Q (fun s => collectNamedFromExpression v s e) (refSet (walked e))) :
    Pass succ Marks.nodes Q (fun s => collectPayload v s payload)
      (refSet (Expression.payloadRefs (fun _ => []) payload)) := by
  cases payload with
  | none => simpa [collectPayload, Expression.payloadRefs] using Pass.rfl
  | some e => exact h e rfl

theorem collectArgs_pass (hc : ∀ n, Pass succ Marks.nodes Q (v.con n) {.con n})
    (args : List (Expression × Constructor))
    (h : ∀ a ∈ args,
      Pass succ Marks.nodes Q (fun s => collectNamedFromExpression v s a.1) (refSet (walked a.1))) :
    Pass succ Marks.nodes Q (fun s => collectArgs v s args)
      (refSet (Expression.argRefs (fun _ => []) args)) := by
  induction args with
  | nil => simpa [collectArgs, Expression.argRefs] using Pass.rfl
  | cons a args ih =>
    simp only [collectArgs, Expression.argRefs, refSet_append]
    exact ((h a (by simp)).comp (collectNamedFromConstructor_pass hc a.2)).comp
      (ih fun b hb => h b (by simp [hb]))

theorem collectExpressionFields_pass (hc : ∀ n, Pass succ Marks.nodes Q (v.con n) {.con n})
    (fields : List (Constructor × Expression × Constructor))
    (h : ∀ f ∈ fields,
      Pass succ Marks.nodes Q (fun s => collectNamedFromExpression v s f.2.1)
        (refSet (walked f.2.1))) :
    Pass succ Marks.nodes Q (fun s => collectExpressionFields v s fields)
      (refSet (Expression.fieldRefs (fun _ => []) fields)) := by
  induction fields with
  | nil => simpa [collectExpressionFields, Expression.fieldRefs] using Pass.rfl
  | cons f fields ih =>
    simp only [collectExpressionFields, Expression.fieldRefs, refSet_append]
    exact (((collectNamedFromConstructor_pass hc f.1).comp (h f (by simp))).comp
      (collectNamedFromConstructor_pass hc f.2.2)).comp (ih fun g hg => h g (by simp [hg]))

theorem collectArms_pass (hc : ∀ n, Pass succ Marks.nodes Q (v.con n) {.con n})
    (arms : List (Pattern × Expression))
    (h : ∀ a ∈ arms,
      Pass succ Marks.nodes Q (fun s => collectNamedFromExpression v s a.2) (refSet (walked a.2))) :
    Pass succ Marks.nodes Q (fun s => collectArms v s arms)
      (refSet (Expression.armRefs (fun _ => []) arms)) := by
  induction arms with
  | nil => simpa [collectArms, Expression.armRefs] using Pass.rfl
  | cons a arms ih =>
    simp only [collectArms, Expression.armRefs, refSet_append]
    exact ((collectNamedFromPattern_pass hc a.1).comp (h a (by simp))).comp
      (ih fun b hb => h b (by simp [hb]))

theorem collectExpressions_pass_of (es : List Expression)
    (h : ∀ e ∈ es,
      Pass succ Marks.nodes Q (fun s => collectNamedFromExpression v s e) (refSet (walked e))) :
    Pass succ Marks.nodes Q (fun s => collectExpressions v s es) (refSet (walkedList es)) := by
  induction es with
  | nil => simpa [collectExpressions, Expression.listRefs] using Pass.rfl
  | cons e es ih =>
    simp only [collectExpressions, Expression.listRefs, refSet_append]
    exact (h e (by simp)).comp (ih fun g hg => h g (by simp [hg]))

theorem collectNamedFromExpression_pass (hc : ∀ n, Pass succ Marks.nodes Q (v.con n) {.con n})
    (he : ∀ n, Pass succ Marks.nodes Q (v.exp n) {.exp n}) (e : Expression) :
    Pass succ Marks.nodes Q (fun s => collectNamedFromExpression v s e) (refSet (walked e)) := by
  have hcon := collectNamedFromConstructor_pass hc
  induction e with
  | prim | rel | ffi => simpa [collectNamedFromExpression, Expression.refsWith] using Pass.rfl
  | named n =>
    simp only [collectNamedFromExpression, Expression.refsWith, refSet_single]
    exact he n
  | serverCall n args result fm ih =>
    have hsplit : refSet (walked (.serverCall n args result fm)) =
        ({.exp n} ∪ refSet (walkedList args)) ∪ refSet result.refs := by
      rw [← refSet_single, ← refSet_append, ← refSet_append]
      simp [Expression.refsWith]
    rw [hsplit]
    exact ((he n).comp (collectExpressions_pass_of args ih)).comp (hcon result)
  | constructor dk pc args payload ih =>
    simp only [collectNamedFromExpression, Expression.refsWith, refSet_append, refSet_nil,
      Set.empty_union]
    exact (collectConstructors_pass hc args).comp (collectPayload_pass payload ih)
  | ffiApp m x args ih => exact collectArgs_pass hc args ih
  | app e1 e2 ih1 ih2 =>
    simp only [collectNamedFromExpression, Expression.refsWith, refSet_append]
    exact ih1.comp ih2
  | abs x dom ran body ih =>
    simp only [collectNamedFromExpression, Expression.refsWith, refSet_append]
    exact ((hcon dom).comp (hcon ran)).comp ih
  | cApp e c ih =>
    simp only [collectNamedFromExpression, Expression.refsWith, refSet_append]
    exact ih.comp (hcon c)
  | cAbs _ _ e ih | kAbs _ e ih | kApp e _ ih | write e ih => exact ih
  | record fields ih => exact collectExpressionFields_pass hc fields ih
  | field e c info ih | cut e c info ih =>
    simp only [collectNamedFromExpression, Expression.refsWith, refSet_append]
    exact ((ih.comp (hcon c)).comp (hcon info.field)).comp (hcon info.rest)
  | concat e1 c1 e2 c2 ih1 ih2 =>
    simp only [collectNamedFromExpression, Expression.refsWith, refSet_append]
    exact ((ih1.comp (hcon c1)).comp ih2).comp (hcon c2)
  | cutMulti e c info ih =>
    simp only [collectNamedFromExpression, Expression.refsWith, refSet_append]
    exact (ih.comp (hcon c)).comp (hcon info.rest)
  | case disc arms info ihd iha =>
    simp only [collectNamedFromExpression, Expression.refsWith, refSet_append]
    exact ((ihd.comp (collectArms_pass hc arms iha)).comp (hcon _)).comp (hcon _)
  | closure n captured ih => exact collectExpressions_pass_of captured ih
  | letIn x t e1 e2 ih1 ih2 =>
    simp only [collectNamedFromExpression, Expression.refsWith, refSet_append]
    exact ((hcon t).comp ih1).comp ih2

theorem collectExpressions_pass (hc : ∀ n, Pass succ Marks.nodes Q (v.con n) {.con n})
    (he : ∀ n, Pass succ Marks.nodes Q (v.exp n) {.exp n}) (es : List Expression) :
    Pass succ Marks.nodes Q (fun s => collectExpressions v s es) (refSet (walkedList es)) :=
  collectExpressions_pass_of es fun e _ => collectNamedFromExpression_pass hc he e

theorem markGroup_pass (he : ∀ n, Pass succ Marks.nodes Q (v.exp n) {.exp n}) (ids : List Nat) :
    Pass succ Marks.nodes Q (fun s => ids.foldl (fun s id => v.exp id s) s)
      (refSet (ids.map .exp)) := by
  have hroots : refSet (ids.map .exp) = rootsOf (fun id => {.exp id}) ids := by
    ext r
    simp [rootsOf, eq_comm]
  rw [hroots]
  exact Pass.foldl ids fun id _ => he id

end

-- ---------------------------------------------------------------------------
-- Enough fuel
-- ---------------------------------------------------------------------------

/-- What the visit of a constructor does once it is marked. -/
def markedConstructor (defs : Defs) (fuel n : Nat) (s : Marks) : Marks :=
  match defs.constructorDefs n with
  | some deps => collectConstructors ⟨markConstructorUsed defs fuel, fun _ s => s⟩ s deps
  | none => s

/-- What the visit of a value does once it is marked. -/
def markedExpression (defs : Defs) (conFuel fuel n : Nat) (s : Marks) : Marks :=
  let v : Visit := ⟨markConstructorUsed defs conFuel, markExpressionUsed defs conFuel fuel⟩
  match defs.expressionDefs n with
  | some d =>
    let s := collectExpressions v (collectConstructors v s d.constructorDeps) d.expressionDeps
    d.mutualGroupIds.foldl (fun s id => v.exp id s) s
  | none => s

theorem markConstructorUsed_pass {defs : Defs} {U : Finset Nat}
    (hU : ∀ n ∉ U, defs.constructorDefs n = none) (fuel n : Nat) :
    Pass defs.succ Marks.nodes (fun s => True ∧ s.conLeft U ≤ fuel)
      (markConstructorUsed defs fuel n) {.con n} := by
  refine visit_pass (markConstructorUsed defs) (markedConstructor defs) Marks.markCon
    (fun _ _ _ h => h) (fun _ _ => Marks.conLeft_mono U) Marks.nodes_markCon ?_
    (fun _ _ => rfl) ?_ ?_ ?_ fuel n
  · intro n s hs
    by_cases hn : n ∈ U
    · exact .inl (Marks.conLeft_markCon hn hs)
    · exact .inr (by simp [Defs.succ, Defs.conRefs, markedConstructor, hU n hn])
  · intro fuel n s hs
    rw [markConstructorUsed, if_pos (Marks.con_mem_nodes.mp hs)]
  · intro fuel n s hs
    exact if_neg (mt Marks.con_mem_nodes.mpr hs)
  · intro fuel n ih
    unfold markedConstructor
    cases hd : defs.constructorDefs n with
    | none => simpa [Defs.succ, Defs.conRefs, hd] using Pass.rfl
    | some deps =>
      simpa [Defs.succ, Defs.conRefs, hd] using
        collectConstructors_pass (v := ⟨markConstructorUsed defs fuel, fun _ s => s⟩) ih deps

theorem markExpressionUsed_pass {defs : Defs} {U V : Finset Nat}
    (hU : ∀ n ∉ U, defs.constructorDefs n = none) (hV : ∀ n ∉ V, defs.expressionDefs n = none)
    (conFuel fuel n : Nat) :
    Pass defs.succ Marks.nodes (fun s => s.conLeft U ≤ conFuel ∧ s.expLeft V ≤ fuel)
      (markExpressionUsed defs conFuel fuel n) {.exp n} := by
  refine visit_pass (markExpressionUsed defs conFuel) (markedExpression defs conFuel) Marks.markExp
    (fun _ _ h hs => (Marks.conLeft_mono U h).trans hs)
    (fun _ _ => Marks.expLeft_mono V) Marks.nodes_markExp ?_ (fun _ _ => rfl) ?_ ?_ ?_ fuel n
  · intro n s hs
    by_cases hn : n ∈ V
    · exact .inl (Marks.expLeft_markExp hn hs)
    · exact .inr (by simp [Defs.succ, Defs.expRefs, markedExpression, hV n hn])
  · intro fuel n s hs
    rw [markExpressionUsed, if_pos (Marks.exp_mem_nodes.mp hs)]
  · intro fuel n s hs
    exact if_neg (mt Marks.exp_mem_nodes.mpr hs)
  · intro fuel n ih
    unfold markedExpression
    cases hd : defs.expressionDefs n with
    | none => simpa [Defs.succ, Defs.expRefs, hd] using Pass.rfl
    | some d =>
      -- a constructor walk marks constructors only, so the value fuel still fits
      have hcon (m : Nat) : Pass defs.succ Marks.nodes
          (fun s => s.conLeft U ≤ conFuel ∧ s.expLeft V ≤ fuel)
          (markConstructorUsed defs conFuel m) {.con m} := fun s hs =>
        ((markConstructorUsed_pass hU conFuel m).and
          fun _ _ h hs => (Marks.expLeft_mono V h).trans hs) s ⟨⟨trivial, hs.1⟩, hs.2⟩ |>.imp_left
            fun h => ⟨h.1.2, h.2⟩
      let v : Visit := ⟨markConstructorUsed defs conFuel, markExpressionUsed defs conFuel fuel⟩
      have hpass := ((collectConstructors_pass (v := v) hcon d.constructorDeps).comp
        (collectExpressions_pass (v := v) hcon ih d.expressionDeps)).comp
        (markGroup_pass (v := v) ih d.mutualGroupIds)
      simpa only [Defs.succ, Defs.expRefs, hd, ExpressionDef.refs, refSet_append,
        Option.map_some, Option.getD_some] using hpass

end UrWeb.Core.DeadCodeElimination
