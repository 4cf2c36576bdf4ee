import UrWeb.Mono.Shake

/-!
# The walks of the Mono shake saturate

Every walk adds to the mark sets exactly what the definitions reach from the
ids the walked syntax mentions, once the fuel covers the definitions.
-/

namespace UrWeb.Mono.Shake

open UrWeb.Mono Saturation

-- ---------------------------------------------------------------------------
-- The reference graph
-- ---------------------------------------------------------------------------

def Defs.conRefs (defs : Defs) (n : Nat) : List Ref := ((defs.cdef n).map constrRefs).getD []

def Defs.expRefs (defs : Defs) (n : Nat) : List Ref :=
  ((defs.edef n).map fun d => d.1.refs ++ d.2.refs).getD []

/-- What the definition of an id mentions. -/
def Defs.succ (defs : Defs) : Ref → Set Ref
  | .con n => refSet (defs.conRefs n)
  | .exp n => refSet (defs.expRefs n)

-- ---------------------------------------------------------------------------
-- The walks saturate
-- ---------------------------------------------------------------------------

section
variable {succ : Ref → Set Ref} {Q : Free → Prop} {v : Visit}

theorem shakeFields_pass (xts : List (String × Typ))
    (h : ∀ f ∈ xts, Pass succ Marks.nodes Q (fun s => shakeTyp v s f.2) (refSet f.2.refs)) :
    Pass succ Marks.nodes Q (fun s => shakeFields v s xts) (refSet (Typ.fieldRefs xts)) := by
  induction xts with
  | nil => simpa [shakeFields, Typ.fieldRefs] using Pass.rfl
  | cons f xts ih =>
    simp only [shakeFields, Typ.fieldRefs, refSet_append]
    exact (h f (by simp)).comp (ih fun g hg => h g (by simp [hg]))

theorem shakeTyp_pass (hc : ∀ n, Pass succ Marks.nodes Q (v.con n) {.con n}) (t : Typ) :
    Pass succ Marks.nodes Q (fun s => shakeTyp v s t) (refSet t.refs) := by
  induction t with
  | func d r ihd ihr =>
    simp only [shakeTyp, Typ.refs, refSet_append]
    exact ihd.comp ihr
  | record fields ih => exact shakeFields_pass fields ih
  | datatype n =>
    simp only [shakeTyp, Typ.refs, refSet_single]
    exact hc n
  | ffi => simpa [shakeTyp, Typ.refs] using Pass.rfl
  | source => simpa [shakeTyp, Typ.refs] using Pass.rfl
  | option t ih => exact ih
  | list t ih => exact ih
  | signal t ih => exact ih
  | transaction t ih => exact ih

theorem shakePatCon_pass (hc : ∀ n, Pass succ Marks.nodes Q (v.con n) {.con n}) (pc : PatCon) :
    Pass succ Marks.nodes Q (fun s => shakePatCon v s pc) (refSet pc.refs) := by
  unfold shakePatCon PatCon.refs
  cases pc with
  | var => simpa using Pass.rfl
  | ffi m d c arg =>
    cases arg with
    | none => simpa using Pass.rfl
    | some t => exact shakeTyp_pass hc t

theorem shakePatFields_pass (hc : ∀ n, Pass succ Marks.nodes Q (v.con n) {.con n})
    (xpts : List (String × Pat × Typ))
    (h : ∀ f ∈ xpts, Pass succ Marks.nodes Q (fun s => shakePat v s f.2.1) (refSet f.2.1.refs)) :
    Pass succ Marks.nodes Q (fun s => shakePatFields v s xpts) (refSet (Pat.fieldRefs xpts)) := by
  induction xpts with
  | nil => simpa [shakePatFields, Pat.fieldRefs] using Pass.rfl
  | cons f xpts ih =>
    simp only [shakePatFields, Pat.fieldRefs, refSet_append]
    exact ((h f (by simp)).comp (shakeTyp_pass hc f.2.2)).comp (ih fun g hg => h g (by simp [hg]))

theorem shakePat_pass (hc : ∀ n, Pass succ Marks.nodes Q (v.con n) {.con n}) (p : Pat) :
    Pass succ Marks.nodes Q (fun s => shakePat v s p) (refSet p.refs) := by
  induction p with
  | var x t => exact shakeTyp_pass hc t
  | prim p => simpa [shakePat, Pat.refs] using Pass.rfl
  | con dk pc arg ih =>
    simp only [shakePat, Pat.refs, refSet_append]
    have ha : Pass succ Marks.nodes Q (fun s => shakePatArg v s arg) (refSet (Pat.argRefs arg)) := by
      cases arg with
      | none => simpa [shakePatArg, Pat.argRefs] using Pass.rfl
      | some p => exact ih p rfl
    exact (shakePatCon_pass hc pc).comp ha
  | record fields ih => exact shakePatFields_pass hc fields ih
  | none t => exact shakeTyp_pass hc t
  | some t p ih =>
    simp only [shakePat, Pat.refs, refSet_append]
    exact (shakeTyp_pass hc t).comp ih

theorem shakeExpOpt_pass (o : Option Exp)
    (h : ∀ e ∈ o, Pass succ Marks.nodes Q (fun s => shakeExp v s e) (refSet e.refs)) :
    Pass succ Marks.nodes Q (fun s => shakeExpOpt v s o) (refSet (Exp.optRefs o)) := by
  cases o with
  | none => simpa [shakeExpOpt, Exp.optRefs] using Pass.rfl
  | some e => exact h e rfl

theorem shakeArgs_pass (hc : ∀ n, Pass succ Marks.nodes Q (v.con n) {.con n})
    (args : List (Exp × Typ))
    (h : ∀ a ∈ args, Pass succ Marks.nodes Q (fun s => shakeExp v s a.1) (refSet a.1.refs)) :
    Pass succ Marks.nodes Q (fun s => shakeArgs v s args) (refSet (Exp.argRefs args)) := by
  induction args with
  | nil => simpa [shakeArgs, Exp.argRefs] using Pass.rfl
  | cons a args ih =>
    simp only [shakeArgs, Exp.argRefs, refSet_append]
    exact ((h a (by simp)).comp (shakeTyp_pass hc a.2)).comp (ih fun b hb => h b (by simp [hb]))

theorem shakeExpFields_pass (hc : ∀ n, Pass succ Marks.nodes Q (v.con n) {.con n})
    (xets : List (String × Exp × Typ))
    (h : ∀ f ∈ xets, Pass succ Marks.nodes Q (fun s => shakeExp v s f.2.1) (refSet f.2.1.refs)) :
    Pass succ Marks.nodes Q (fun s => shakeExpFields v s xets) (refSet (Exp.fieldRefs xets)) := by
  induction xets with
  | nil => simpa [shakeExpFields, Exp.fieldRefs] using Pass.rfl
  | cons f xets ih =>
    simp only [shakeExpFields, Exp.fieldRefs, refSet_append]
    exact ((h f (by simp)).comp (shakeTyp_pass hc f.2.2)).comp (ih fun g hg => h g (by simp [hg]))

theorem shakeArms_pass (hc : ∀ n, Pass succ Marks.nodes Q (v.con n) {.con n})
    (arms : List (Pat × Exp))
    (h : ∀ a ∈ arms, Pass succ Marks.nodes Q (fun s => shakeExp v s a.2) (refSet a.2.refs)) :
    Pass succ Marks.nodes Q (fun s => shakeArms v s arms) (refSet (Exp.armRefs arms)) := by
  induction arms with
  | nil => simpa [shakeArms, Exp.armRefs] using Pass.rfl
  | cons a arms ih =>
    simp only [shakeArms, Exp.armRefs, refSet_append]
    exact ((shakePat_pass hc a.1).comp (h a (by simp))).comp (ih fun b hb => h b (by simp [hb]))

theorem shakeExps_pass (es : List Exp)
    (h : ∀ e ∈ es, Pass succ Marks.nodes Q (fun s => shakeExp v s e) (refSet e.refs)) :
    Pass succ Marks.nodes Q (fun s => shakeExps v s es) (refSet (Exp.listRefs es)) := by
  induction es with
  | nil => simpa [shakeExps, Exp.listRefs] using Pass.rfl
  | cons e es ih =>
    simp only [shakeExps, Exp.listRefs, refSet_append]
    exact (h e (by simp)).comp (ih fun g hg => h g (by simp [hg]))

theorem shakeFieldTyps_pass (hc : ∀ n, Pass succ Marks.nodes Q (v.con n) {.con n})
    (xts : List (String × Typ)) :
    Pass succ Marks.nodes Q (fun s => shakeFields v s xts) (refSet (Typ.fieldRefs xts)) :=
  shakeFields_pass xts fun f _ => shakeTyp_pass hc f.2

theorem shakeExp_pass (hc : ∀ n, Pass succ Marks.nodes Q (v.con n) {.con n})
    (he : ∀ n, Pass succ Marks.nodes Q (v.exp n) {.exp n}) (e : Exp) :
    Pass succ Marks.nodes Q (fun s => shakeExp v s e) (refSet e.refs) := by
  induction e with
  | prim | rel | ffi => simpa [shakeExp, Exp.refs] using Pass.rfl
  | named n =>
    simp only [shakeExp, Exp.refs, refSet_single]
    exact he n
  | con dk pc arg ih =>
    simp only [shakeExp, Exp.refs, refSet_append]
    exact (shakePatCon_pass hc pc).comp (shakeExpOpt_pass arg ih)
  | none t => exact shakeTyp_pass hc t
  | some t e ih =>
    simp only [shakeExp, Exp.refs, refSet_append]
    exact (shakeTyp_pass hc t).comp ih
  | ffiApp m x args ih => exact shakeArgs_pass hc args ih
  | app e1 e2 ih1 ih2 | binop _ _ e1 e2 ih1 ih2 | strcat e1 e2 ih1 ih2 | seq e1 e2 ih1 ih2
  | signalBind e1 e2 ih1 ih2 | setval e1 e2 ih1 ih2 =>
    simp only [shakeExp, Exp.refs, refSet_append]
    exact ih1.comp ih2
  | abs x dom ran body ih =>
    simp only [shakeExp, Exp.refs, refSet_append]
    exact ((shakeTyp_pass hc dom).comp (shakeTyp_pass hc ran)).comp ih
  | unop _ e ih | field e _ ih | write e ih | signalReturn e ih | signalSource e ih | sleep e ih
  | spawn e ih | nextval e ih | dml e _ ih => exact ih
  | record xets ih => exact shakeExpFields_pass hc xets ih
  | case disc arms info ihd iha =>
    simp only [shakeExp, Exp.refs, refSet_append]
    exact ((ihd.comp (shakeArms_pass hc arms iha)).comp (shakeTyp_pass hc _)).comp
      (shakeTyp_pass hc _)
  | error e t ih | redirect e t ih | uurlify e t _ ih | serverCall e t _ _ ih | recv e t ih =>
    simp only [shakeExp, Exp.refs, refSet_append]
    exact ih.comp (shakeTyp_pass hc t)
  | returnBlob blob mimeType t ihb ihm =>
    simp only [shakeExp, Exp.refs, refSet_append]
    exact ((shakeExpOpt_pass blob ihb).comp ihm).comp (shakeTyp_pass hc t)
  | letIn x t e1 e2 ih1 ih2 =>
    simp only [shakeExp, Exp.refs, refSet_append]
    exact ((shakeTyp_pass hc t).comp ih1).comp ih2
  | closure n envs ih => exact shakeExps_pass envs ih
  | query qm query body initial ihq ihb ihi =>
    simp only [shakeExp, Exp.refs, QueryTypes.refs, refSet_append, refSet_flatMap]
    have ht : Pass succ Marks.nodes Q
        (fun s => qm.tables.foldl (fun s xxts => shakeFields v s xxts.2) s)
        (rootsOf (fun x => refSet (Typ.fieldRefs x.2)) qm.tables) :=
      Pass.foldl qm.tables fun x _ => shakeFieldTyps_pass hc x.2
    exact (((((shakeFieldTyps_pass hc qm.exps).comp ht).comp (shakeTyp_pass hc qm.state)).comp
      ihq).comp ihb).comp ihi
  | javaScript mode e ih =>
    cases mode with
    | source t =>
      simp only [shakeExp, Exp.refs, JavaScriptMode.refs, refSet_append]
      exact (shakeTyp_pass hc t).comp ih
    | _ => simpa [shakeExp, Exp.refs, JavaScriptMode.refs] using ih

theorem shakeConstrs_pass (hc : ∀ n, Pass succ Marks.nodes Q (v.con n) {.con n})
    (xncs : List (String × Nat × Option Typ)) :
    Pass succ Marks.nodes Q (fun s => shakeConstrs v s xncs) (refSet (constrRefs xncs)) := by
  rw [constrRefs, refSet_flatMap]
  refine Pass.foldl xncs fun xnc _ => ?_
  cases xnc.2.2 with
  | none => simpa using Pass.rfl
  | some t => exact shakeTyp_pass hc t

end

-- ---------------------------------------------------------------------------
-- Enough fuel
-- ---------------------------------------------------------------------------

/-- What the visit of a datatype does once it is marked. -/
def visitedCon (defs : Defs) (fuel n : Nat) (s : Free) : Free :=
  match defs.cdef n with
  | some xncs => shakeConstrs ⟨visitCon defs fuel, fun _ s => s⟩ s xncs
  | none => s

/-- What the visit of a value does once it is marked. -/
def visitedExp (defs : Defs) (conFuel fuel n : Nat) (s : Free) : Free :=
  let v : Visit := ⟨visitCon defs conFuel, visitExp defs conFuel fuel⟩
  match defs.edef n with
  | some (t, e) => shakeExp v (shakeTyp v s t) e
  | none => s

theorem visitCon_pass {defs : Defs} {U : Finset Nat} (hU : ∀ n ∉ U, defs.cdef n = none)
    (fuel n : Nat) :
    Pass defs.succ Marks.nodes (fun s => True ∧ s.conLeft U ≤ fuel) (visitCon defs fuel n)
      {.con n} := by
  refine visit_pass (visitCon defs) (visitedCon defs) Marks.markCon
    (fun _ _ _ h => h) (fun _ _ => Marks.conLeft_mono U) Marks.nodes_markCon ?_
    (fun _ _ => rfl) ?_ ?_ ?_ fuel n
  · intro n s hs
    by_cases hn : n ∈ U
    · exact .inl (Marks.conLeft_markCon hn hs)
    · exact .inr (by simp [Defs.succ, Defs.conRefs, visitedCon, hU n hn])
  · intro fuel n s hs
    rw [visitCon, if_pos (Marks.con_mem_nodes.mp hs)]
  · intro fuel n s hs
    exact if_neg (mt Marks.con_mem_nodes.mpr hs)
  · intro fuel n ih
    unfold visitedCon
    cases hd : defs.cdef n with
    | none => simpa [Defs.succ, Defs.conRefs, hd] using Pass.rfl
    | some xncs =>
      simpa [Defs.succ, Defs.conRefs, hd] using
        shakeConstrs_pass (v := ⟨visitCon defs fuel, fun _ s => s⟩) ih xncs

theorem visitExp_pass {defs : Defs} {U V : Finset Nat} (hU : ∀ n ∉ U, defs.cdef n = none)
    (hV : ∀ n ∉ V, defs.edef n = none) (conFuel fuel n : Nat) :
    Pass defs.succ Marks.nodes (fun s => s.conLeft U ≤ conFuel ∧ s.expLeft V ≤ fuel)
      (visitExp defs conFuel fuel n) {.exp n} := by
  refine visit_pass (visitExp defs conFuel) (visitedExp defs conFuel) Marks.markExp
    (fun _ _ h hs => (Marks.conLeft_mono U h).trans hs) (fun _ _ => Marks.expLeft_mono V)
    Marks.nodes_markExp ?_ (fun _ _ => rfl) ?_ ?_ ?_ fuel n
  · intro n s hs
    by_cases hn : n ∈ V
    · exact .inl (Marks.expLeft_markExp hn hs)
    · exact .inr (by simp [Defs.succ, Defs.expRefs, visitedExp, hV n hn])
  · intro fuel n s hs
    rw [visitExp, if_pos (Marks.exp_mem_nodes.mp hs)]
  · intro fuel n s hs
    exact if_neg (mt Marks.exp_mem_nodes.mpr hs)
  · intro fuel n ih
    unfold visitedExp
    cases hd : defs.edef n with
    | none => simpa [Defs.succ, Defs.expRefs, hd] using Pass.rfl
    | some d =>
      -- a type walk marks datatypes only, so the value fuel still fits
      have hcon (m : Nat) : Pass defs.succ Marks.nodes
          (fun s => s.conLeft U ≤ conFuel ∧ s.expLeft V ≤ fuel) (visitCon defs conFuel m)
          {.con m} := fun s hs =>
        ((visitCon_pass hU conFuel m).and
          fun _ _ h hs => (Marks.expLeft_mono V h).trans hs) s ⟨⟨trivial, hs.1⟩, hs.2⟩ |>.imp_left
            fun h => ⟨h.1.2, h.2⟩
      let v : Visit := ⟨visitCon defs conFuel, visitExp defs conFuel fuel⟩
      have hpass := (shakeTyp_pass (v := v) hcon d.1).comp (shakeExp_pass (v := v) hcon ih d.2)
      simpa [Defs.succ, Defs.expRefs, hd] using hpass

-- ---------------------------------------------------------------------------
-- Definition maps
-- ---------------------------------------------------------------------------

/-- No other datatype of the file has the id of this one. -/
def SingleDatatype (decls : List Decl) (dt : DatatypeDecl) : Prop :=
  ∀ dt' ∈ datatypeDecls decls, dt'.id = dt.id → dt' = dt

/-- No other binding of the file has the id of this one. -/
def SingleVal (decls : List Decl) (vi : ValBinding) : Prop :=
  ∀ vi' ∈ valBindings decls, vi'.n = vi.n → vi' = vi

theorem conRefs_single (hd : dt ∈ datatypeDecls decls) (h : SingleDatatype decls dt) :
    (buildDefs decls).conRefs dt.id = dt.refs := by
  have := foldl_update_some DatatypeDecl.id DatatypeDecl.constrs _ (fun _ => none) hd h
  simp [Defs.conRefs, buildDefs, this, DatatypeDecl.refs]

theorem expRefs_single (hv : vi ∈ valBindings decls) (h : SingleVal decls vi) :
    (buildDefs decls).expRefs vi.n = vi.refs := by
  have := foldl_update_some ValBinding.n (fun vi => (vi.t, vi.e)) _ (fun _ => none) hv h
  simp [Defs.expRefs, buildDefs, this, ValBinding.refs]

theorem visitor_con (decls : List Decl) (n : Nat) :
    Pass (buildDefs decls).succ Marks.nodes (fun _ => True) ((visitor decls).con n) {.con n} := by
  have hU : ∀ m ∉ ((datatypeDecls decls).map DatatypeDecl.id).toFinset,
      (buildDefs decls).cdef m = none := fun m hm =>
    foldl_update_none _ _ _ _ fun dt hdt hk =>
      hm (List.mem_toFinset.mpr (List.mem_map.mpr ⟨dt, hdt, hk⟩))
  intro s _
  have hle := s.conLeft_le ((datatypeDecls decls).map DatatypeDecl.id)
  rw [List.length_map] at hle
  exact ⟨trivial, (visitCon_pass hU _ n s ⟨trivial, hle⟩).2⟩

theorem visitor_exp (decls : List Decl) (n : Nat) :
    Pass (buildDefs decls).succ Marks.nodes (fun _ => True) ((visitor decls).exp n) {.exp n} := by
  have hU : ∀ m ∉ ((datatypeDecls decls).map DatatypeDecl.id).toFinset,
      (buildDefs decls).cdef m = none := fun m hm =>
    foldl_update_none _ _ _ _ fun dt hdt hk =>
      hm (List.mem_toFinset.mpr (List.mem_map.mpr ⟨dt, hdt, hk⟩))
  have hV : ∀ m ∉ ((valBindings decls).map ValBinding.n).toFinset,
      (buildDefs decls).edef m = none := fun m hm =>
    foldl_update_none _ _ _ _ fun vi hvi hk =>
      hm (List.mem_toFinset.mpr (List.mem_map.mpr ⟨vi, hvi, hk⟩))
  intro s _
  have hleU := s.conLeft_le ((datatypeDecls decls).map DatatypeDecl.id)
  have hleV := s.expLeft_le ((valBindings decls).map ValBinding.n)
  rw [List.length_map] at hleU hleV
  exact ⟨trivial, (visitExp_pass hU hV _ _ n s ⟨hleU, hleV⟩).2⟩

/-- The file's walks need nothing of the state they start from. -/
theorem shakeTyp_nodes (decls : List Decl) (s : Free) (t : Typ) :
    (shakeTyp (visitor decls) s t).nodes =
      saturate (buildDefs decls).succ s.nodes (refSet t.refs) :=
  (shakeTyp_pass (visitor_con decls) t s trivial).2

theorem shakeFields_nodes (decls : List Decl) (s : Free) (xts : List (String × Typ)) :
    (shakeFields (visitor decls) s xts).nodes =
      saturate (buildDefs decls).succ s.nodes (refSet (Typ.fieldRefs xts)) :=
  (shakeFieldTyps_pass (visitor_con decls) xts s trivial).2

theorem shakeExp_nodes (decls : List Decl) (s : Free) (e : Exp) :
    (shakeExp (visitor decls) s e).nodes =
      saturate (buildDefs decls).succ s.nodes (refSet e.refs) :=
  (shakeExp_pass (visitor_con decls) (visitor_exp decls) e s trivial).2

end UrWeb.Mono.Shake
