import UrWeb.Core.MarshalCheck
import UrWeb.Core.Scope

/-!
# What the marshalling check finds

The check sees a forbidden type exactly when it is reached by going from each
named type to types declared before it, the earlier members of its own group
included. A forbidden type that is reached only through a later member of a
group is missed.
-/

namespace UrWeb.Core.MarshalCheck

/-- A named type with the types it is made of. -/
structure TypeDef where
  id : Nat
  parts : List Constructor

def declTypeDefs : Declaration → List TypeDef
  | .constructor _ n _ c => [⟨n, [c]⟩]
  | .datatype dts => dts.map fun dt => ⟨dt.id, dt.payloads⟩
  | _ => []

/-- The named types in the order in which they are declared. -/
def typeDefs (file : File) : List TypeDef := file.flatMap declTypeDefs

/-- A foreign type occurs in a type, or in what one of its names stands for. -/
inductive Reaches (defs : List TypeDef) : Constructor → Ffi → Prop
  | ffi : .ffi m x ∈ c.nodes → Reaches defs c (m, x)
  | named : .named d.id ∈ c.nodes → d ∈ defs → c' ∈ d.parts → Reaches defs c' p →
      Reaches defs c p

/-- The same, where each name leads to what was declared before it. -/
inductive ReachesBack : List TypeDef → Constructor → Ffi → Prop
  | ffi : .ffi m x ∈ c.nodes → ReachesBack defs c (m, x)
  | named : .named d.id ∈ c.nodes → defs = earlier ++ d :: later → c' ∈ d.parts →
      ReachesBack earlier c' p → ReachesBack defs c p

-- ---------------------------------------------------------------------------
-- What crosses from the client
-- ---------------------------------------------------------------------------

/-- The types of a handler's arguments, those of the exempt ones left out. -/
def argTypes : Constructor → List Constructor
  | .tFun dom ran => (if isExemptInput dom then [] else [dom]) ++ argTypes ran
  | _ => []

def serializedAt : Expression → Option Constructor
  | .cApp (.ffi m x) t => if isSerializer m x then some t else none
  | _ => none

/-- The types at which a serialiser is instantiated. -/
def serialized (e : Expression) : List Constructor := e.nodes.filterMap serializedAt

def expressions : Declaration → List Expression
  | .val vi => [vi.body]
  | .valRec vis => vis.map ValBinding.body
  | .table td => [td.exp, td.pkExp]
  | .view _ _ _ e _ | .policy e => [e]
  | .index e1 e2 | .task e1 e2 => [e1, e2]
  | _ => []

def handlerTypes (file : File) (n : Nat) : List Constructor :=
  ((bindings file).filter fun vi => vi.id = n).map ValBinding.t

/-- The types that a declaration lets cross. -/
def declCrossing (file : File) : Declaration → List Constructor
  | .export _ n _ => (handlerTypes file n).flatMap argTypes
  | .cookie _ _ t _ => [t]
  | d => (expressions d).flatMap serialized

/-- The types that the file lets cross: what its exported handlers take, what its
cookies hold and what it serialises. -/
def crossing (file : File) : List Constructor := file.flatMap (declCrossing file)

-- ---------------------------------------------------------------------------
-- Summaries of named types
-- ---------------------------------------------------------------------------

section
variable {settings : Settings} {cmap : CMap}

theorem mem_sinsVisit {s : Finset Ffi} : p ∈ sinsVisit settings cmap c s ↔ p ∈ s ∨
    (settings.mayClientToServer p = false ∧ c = .ffi p.1 p.2) ∨
      ∃ n S, c = .named n ∧ cmap n = some S ∧ p ∈ S := by
  cases c with
  | ffi m x =>
    simp only [sinsVisit, Constructor.ffi.injEq, reduceCtorEq, false_and, exists_false, or_false]
    split
    · rename_i h
      constructor
      · exact Or.inl
      · rintro (hp | ⟨hp, rfl, rfl⟩)
        · exact hp
        · exact absurd (h.symm.trans hp) (by simp)
    · rename_i h
      rw [Finset.mem_insert]
      constructor
      · rintro (rfl | hp)
        · exact .inr ⟨by simpa using h, rfl, rfl⟩
        · exact .inl hp
      · rintro (hp | ⟨-, rfl, rfl⟩)
        · exact .inr hp
        · exact .inl rfl
  | named n =>
    simp only [sinsVisit, Constructor.named.injEq, reduceCtorEq, and_false, false_or]
    split
    · rename_i S hS
      rw [Finset.mem_union]
      exact or_congr_right ⟨fun hp => ⟨n, S, rfl, hS, hp⟩, fun ⟨m, S', hm, hS', hp⟩ => by
        subst hm
        rwa [Option.some.inj (hS.symm.trans hS')]⟩
    · rename_i hnone
      refine ⟨.inl, ?_⟩
      rintro (hp | ⟨m, S, rfl, hS, -⟩)
      · exact hp
      · exact absurd (hnone.symm.trans hS) (by simp)
  | _ => simp [sinsVisit]

theorem mem_sins : p ∈ sins settings cmap con ↔
    (settings.mayClientToServer p = false ∧ .ffi p.1 p.2 ∈ con.nodes) ∨
      ∃ n S, .named n ∈ con.nodes ∧ cmap n = some S ∧ p ∈ S := by
  have hfold (l : List Constructor) (s : Finset Ffi) :
      p ∈ l.foldl (fun s c => sinsVisit settings cmap c s) s ↔ p ∈ s ∨
        (settings.mayClientToServer p = false ∧ .ffi p.1 p.2 ∈ l) ∨
          ∃ n S, .named n ∈ l ∧ cmap n = some S ∧ p ∈ S := by
    induction l generalizing s with
    | nil => simp
    | cons c l ih =>
      rw [List.foldl_cons, ih, mem_sinsVisit]
      simp only [List.mem_cons, or_and_right, and_or_left, exists_or, eq_comm (b := c)]
      rw [or_assoc, or_or_or_comm]
  rw [sins, Constructor.fold, hfold]
  simp

/-- What the map holds after the types `defs` have been declared. -/
def Summarises (settings : Settings) (cmap : CMap) (defs : List TypeDef) : Prop :=
  ∀ n p, (∃ S, cmap n = some S ∧ p ∈ S) ↔ settings.mayClientToServer p = false ∧
    ∃ earlier d later, defs = earlier ++ d :: later ∧ d.id = n ∧
      ∃ c ∈ d.parts, ReachesBack earlier c p

theorem sins_iff (h : Summarises settings cmap defs) :
    p ∈ sins settings cmap c ↔ settings.mayClientToServer p = false ∧ ReachesBack defs c p := by
  rw [mem_sins]
  constructor
  · rintro (⟨hp, hnode⟩ | ⟨n, S, hnode, hS⟩)
    · exact ⟨hp, .ffi hnode⟩
    · obtain ⟨hp, earlier, d, later, hdefs, rfl, c', hc', hreach⟩ := (h n p).mp ⟨S, hS⟩
      exact ⟨hp, .named hnode hdefs hc' hreach⟩
  · rintro ⟨hp, hreach⟩
    cases hreach with
    | ffi hnode => exact .inl ⟨hp, hnode⟩
    | named hnode hdefs hc' hreach =>
      obtain ⟨S, hS⟩ := (h _ p).mpr ⟨hp, _, _, _, hdefs, rfl, _, hc', hreach⟩
      exact .inr ⟨_, S, hnode, hS⟩

theorem Summarises.nil : Summarises settings (fun _ => none) [] := by
  intro n p
  simp

theorem concat_eq_split {defs earlier later : List TypeDef} :
    defs ++ [d] = earlier ++ d' :: later ↔
      (later = [] ∧ d' = d ∧ earlier = defs) ∨
        ∃ later', later = later' ++ [d] ∧ defs = earlier ++ d' :: later' := by
  constructor
  · intro h
    obtain rfl | ⟨later', d'', rfl⟩ := later.eq_nil_or_concat'
    · obtain ⟨rfl, hd⟩ := List.append_inj' h rfl
      exact .inl ⟨rfl, (List.cons.inj hd).1.symm, rfl⟩
    · have h' : defs ++ [d] = (earlier ++ d' :: later') ++ [d''] := by simpa using h
      obtain ⟨rfl, hd⟩ := List.append_inj' h' rfl
      exact .inr ⟨later', by rw [(List.cons.inj hd).1], rfl⟩
  · rintro (⟨rfl, rfl, rfl⟩ | ⟨later', rfl, rfl⟩) <;> simp

theorem Summarises.enter {d : TypeDef} (h : Summarises settings cmap defs)
    (hnew : d.id ∉ defs.map TypeDef.id)
    (hS : ∀ p, p ∈ S ↔ settings.mayClientToServer p = false ∧ ∃ c ∈ d.parts, ReachesBack defs c p) :
    Summarises settings (Function.update cmap d.id (some S)) (defs ++ [d]) := by
  intro n p
  by_cases hn : n = d.id
  · subst hn
    simp only [Function.update_self, Option.some.injEq, exists_eq_left']
    rw [hS]
    refine and_congr_right fun _ => ⟨fun hc => ⟨defs, d, [], rfl, rfl, hc⟩, ?_⟩
    rintro ⟨earlier, d', later, hsplit, hid, hc⟩
    obtain ⟨-, rfl, rfl⟩ | ⟨later', -, rfl⟩ := concat_eq_split.mp hsplit
    · exact hc
    · exact absurd (by simp [← hid]) hnew
  · simp only [Function.update_of_ne hn]
    rw [h n p]
    refine and_congr_right fun _ => ⟨?_, ?_⟩
    · rintro ⟨earlier, d', later, rfl, hid, hc⟩
      exact ⟨earlier, d', later ++ [d], by simp, hid, hc⟩
    · rintro ⟨earlier, d', later, hsplit, hid, hc⟩
      obtain ⟨-, rfl, -⟩ | ⟨later', -, hdefs⟩ := concat_eq_split.mp hsplit
      · exact absurd hid.symm hn
      · exact ⟨earlier, d', later', hdefs, hid, hc⟩

theorem mem_datatypeSins (h : Summarises settings cmap defs) (dt : DatatypeDecl) :
    p ∈ datatypeSins settings cmap dt ↔
      settings.mayClientToServer p = false ∧ ∃ c ∈ dt.payloads, ReachesBack defs c p := by
  have hfold (l : List (String × Nat × Option Constructor)) (s : Finset Ffi) :
      p ∈ l.foldl (fun acc xnc => addPayloadSins settings cmap acc xnc.2.2) s ↔
        p ∈ s ∨ settings.mayClientToServer p = false ∧
          ∃ c ∈ l.filterMap (fun xnc => xnc.2.2), ReachesBack defs c p := by
    induction l generalizing s with
    | nil => simp
    | cons xnc l ih =>
      rw [List.foldl_cons, ih]
      cases hc : xnc.2.2 with
      | none => simp [hc, addPayloadSins]
      | some c =>
        simp only [addPayloadSins, Finset.mem_union, sins_iff h, List.filterMap_cons, hc, List.mem_cons,
          exists_eq_or_imp]
        tauto
  rw [datatypeSins, hfold, DatatypeDecl.payloads]
  simp

theorem summarises_datatypes (dts : List DatatypeDecl) (h : Summarises settings cmap defs)
    (hnd : (defs.map TypeDef.id ++ dts.map DatatypeDecl.id).Nodup) :
    Summarises settings
      (dts.foldl (fun cmap dt => Function.update cmap dt.id (some (datatypeSins settings cmap dt)))
        cmap)
      (defs ++ dts.map fun dt => ⟨dt.id, dt.payloads⟩) := by
  induction dts generalizing cmap defs with
  | nil => simpa using h
  | cons dt dts ih =>
    have hnew : dt.id ∉ defs.map TypeDef.id := fun hmem =>
      List.disjoint_of_nodup_append hnd hmem (by simp)
    have hnext := Summarises.enter (d := ⟨dt.id, dt.payloads⟩) h hnew fun p => mem_datatypeSins h dt
    simpa using ih hnext (by simpa using hnd)

theorem summarises_process {st : State} (d : Declaration) (h : Summarises settings st.cmap defs)
    (hnd : ((defs ++ declTypeDefs d).map TypeDef.id).Nodup) :
    Summarises settings (processDeclaration settings st d).cmap (defs ++ declTypeDefs d) := by
  cases d with
  | constructor x n k c =>
    have hnew : n ∉ defs.map TypeDef.id := fun hmem =>
      List.disjoint_of_nodup_append (List.map_append ▸ hnd) hmem (by simp [declTypeDefs])
    exact Summarises.enter (d := ⟨n, [c]⟩) h hnew fun p => by simp [sins_iff h]
  | datatype dts =>
    refine summarises_datatypes dts h ?_
    simpa [declTypeDefs, Function.comp_def] using hnd
  | «export» ek n b =>
    simp only [processDeclaration, declTypeDefs, List.append_nil]
    split
    · exact h
    · split <;> exact h
  | cookie x n t tag =>
    simp only [processDeclaration, declTypeDefs, List.append_nil]
    split <;> exact h
  | _ => simpa [processDeclaration, declTypeDefs] using h

-- ---------------------------------------------------------------------------
-- What is reported
-- ---------------------------------------------------------------------------

/-- No forbidden type is reached by going back. -/
def Clean (settings : Settings) (defs : List TypeDef) (t : Constructor) : Prop :=
  ∀ p, ReachesBack defs t p → settings.mayClientToServer p = true

theorem sins_empty_iff (h : Summarises settings cmap defs) :
    sins settings cmap t = ∅ ↔ Clean settings defs t := by
  simp only [Finset.eq_empty_iff_forall_notMem, sins_iff h, Clean, not_and', Bool.not_eq_false]

theorem makeS_empty_iff (h : Summarises settings cmap defs) :
    makeS settings cmap t = ∅ ↔ ∀ t' ∈ argTypes t, Clean settings defs t' := by
  induction t with
  | tFun dom ran _ ih =>
    rw [makeS, Finset.union_eq_empty, ih, argTypes]
    split <;> simp [sins_empty_iff h]
  | _ => simp [makeS, argTypes]

def checkNode (settings : Settings) (cmap : CMap) (e : Expression) (errors : List Report) :
    List Report :=
  match e with
  | .cApp f t => checkInstance settings cmap f t errors
  | _ => errors

theorem checkNode_nil_iff (h : Summarises settings cmap defs) :
    checkNode settings cmap e errors = [] ↔
      errors = [] ∧ ∀ t ∈ serializedAt e, Clean settings defs t := by
  cases e with
  | cApp f t =>
    cases f with
    | ffi m x =>
      simp only [checkNode, checkInstance, serializedAt]
      by_cases hm : isSerializer m x = true
      · simp only [hm, true_and, if_true, Option.mem_some_iff, forall_eq', ← sins_empty_iff h]
        split <;> simp_all
      · simp [hm]
    | _ => simp [checkNode, checkInstance, serializedAt]
  | _ => simp [checkNode, serializedAt]

/-- The walk checks every node, from left to right. -/
theorem walkExpression_eq (e : Expression) (errors : List Report) :
    walkExpression settings cmap errors e = e.fold (checkNode settings cmap) errors := by
  induction e generalizing errors with
  | constructor dk pc ts payload ih =>
    cases payload with
    | none => rfl
    | some e => exact ih e rfl errors
  | ffiApp m x args ih =>
    change walkArgs settings cmap errors args =
      (Expression.argNodes args).foldl (fun st e => checkNode settings cmap e st) errors
    induction args generalizing errors with
    | nil => rfl
    | cons a args iha =>
      rw [walkArgs, ih a List.mem_cons_self, iha fun b hb => ih b (List.mem_cons_of_mem _ hb),
        Expression.argNodes, List.foldl_append]
      rfl
  | record fields ih =>
    change walkFields settings cmap errors fields =
      (Expression.fieldNodes fields).foldl (fun st e => checkNode settings cmap e st) errors
    induction fields generalizing errors with
    | nil => rfl
    | cons f fields ihf =>
      rw [walkFields, ih f List.mem_cons_self, ihf fun b hb => ih b (List.mem_cons_of_mem _ hb),
        Expression.fieldNodes, List.foldl_append]
      rfl
  | case disc arms info ihd ih =>
    change walkArms settings cmap (walkExpression settings cmap errors disc) arms =
      (disc.nodes ++ Expression.armNodes arms).foldl (fun st e => checkNode settings cmap e st) errors
    rw [ihd, List.foldl_append, Expression.fold]
    generalize disc.nodes.foldl (fun st e => checkNode settings cmap e st) errors = errors
    induction arms generalizing errors with
    | nil => rfl
    | cons a arms iha =>
      rw [walkArms, ih a List.mem_cons_self, iha fun b hb => ih b (List.mem_cons_of_mem _ hb),
        Expression.armNodes, List.foldl_append]
      rfl
  | closure n es ih | serverCall n es t fm ih =>
    change walkList settings cmap errors es =
      (Expression.listNodes es).foldl (fun st e => checkNode settings cmap e st) errors
    induction es generalizing errors with
    | nil => rfl
    | cons e es ihe =>
      rw [walkList, ih e List.mem_cons_self, ihe fun b hb => ih b (List.mem_cons_of_mem _ hb),
        Expression.listNodes, List.foldl_append]
      rfl
  | app e1 e2 ih1 ih2 | concat e1 c1 e2 c2 ih1 ih2 | letIn x t e1 e2 ih1 ih2 =>
    change _ = (e1.nodes ++ e2.nodes).foldl (fun st e => checkNode settings cmap e st) errors
    rw [walkExpression, ih1, ih2, List.foldl_append]
    rfl
  | abs x dom ran e ih | cAbs x k e ih | kAbs x e ih | kApp e k ih | field e c info ih
  | cut e c info ih | cutMulti e c info ih | write e ih | cApp e t ih => exact ih _
  | _ => rfl

theorem walkExpression_nil_iff (h : Summarises settings cmap defs) :
    walkExpression settings cmap errors e = [] ↔
      errors = [] ∧ ∀ t ∈ serialized e, Clean settings defs t := by
  have hfold (es : List Expression) (errors : List Report) :
      es.foldl (fun errors e => checkNode settings cmap e errors) errors = [] ↔
        errors = [] ∧ ∀ t ∈ es.filterMap serializedAt, Clean settings defs t := by
    induction es generalizing errors with
    | nil => simp
    | cons e es ih =>
      rw [List.foldl_cons, ih, checkNode_nil_iff h, List.filterMap_cons]
      cases serializedAt e with
      | none => simp
      | some t => simp [and_assoc]
  rw [walkExpression_eq, Expression.fold, hfold, serialized]

/-- What is known of the values bound so far. -/
structure Knows (emap : EMap) (vis : List ValBinding) : Prop where
  known : ∀ vi ∈ vis, emap vi.id = some (vi.t, vi.s)
  unknown : ∀ n, (∀ vi ∈ vis, vi.id ≠ n) → emap n = none

theorem Knows.enter (vis : List ValBinding) (hnd : (vis.map ValBinding.id).Nodup) :
    Knows (vis.foldl enterBinding fun _ => none) vis where
  known _ hvi := foldl_update_some ValBinding.id (fun vi => (vi.t, vi.s)) vis _ hvi
    fun _ hw hk => List.inj_on_of_nodup_map hnd hw hvi hk
  unknown _ hn := foldl_update_none ValBinding.id (fun vi => (vi.t, vi.s)) vis _ hn

theorem emap_process (st : State) (d : Declaration) :
    (processDeclaration settings st d).emap = (declBindings d).foldl enterBinding st.emap := by
  cases d with
  | «export» ek n b =>
    simp only [processDeclaration, declBindings, List.foldl_nil]
    split
    · rfl
    · split <;> rfl
  | cookie x n t tag =>
    simp only [processDeclaration, declBindings, List.foldl_nil]
    split <;> rfl
  | _ => rfl

theorem mem_handlerTypes : t ∈ handlerTypes file n ↔ ∃ vi ∈ bindings file, vi.id = n ∧ vi.t = t := by
  simp [handlerTypes, and_assoc]

/-- An export of something that was not bound before. -/
def Unbound (file : File) : Declaration → Prop
  | .export _ n _ => ∀ vi ∈ bindings file, vi.id ≠ n
  | _ => False

/-- What one declaration adds to the errors. -/
theorem errors_process {st : State} (d : Declaration) (h : Summarises settings st.cmap defs)
    (hk : Knows st.emap (bindings file)) :
    (processDeclaration settings st d).errors = [] ↔ st.errors = [] ∧ ¬ Unbound file d ∧
      ∀ t ∈ declCrossing file d, Clean settings defs t := by
  cases d with
  | «export» ek n b =>
    simp only [processDeclaration, declCrossing, Unbound]
    split
    · rename_i hnone
      have hno : ∀ vi ∈ bindings file, vi.id ≠ n := by
        rintro vi hvi rfl
        simp [hk.known vi hvi] at hnone
      simp only [List.append_eq_nil_iff, List.cons_ne_self, and_false, false_iff]
      exact fun hall => hall.2.1 hno
    · rename_i t tag hsome
      obtain ⟨vi, hvi, rfl⟩ : ∃ vi ∈ bindings file, vi.id = n := by
        by_contra hcon
        push Not at hcon
        simp [hk.unknown n hcon] at hsome
      obtain ⟨rfl, rfl⟩ : vi.t = t ∧ vi.s = tag := by simpa [hk.known vi hvi] using hsome
      have hbound : ¬ ∀ vj ∈ bindings file, vj.id ≠ vi.id := fun hno => hno vi hvi rfl
      have htypes : (∀ t ∈ (handlerTypes file vi.id).flatMap argTypes, Clean settings defs t) ↔
          makeS settings st.cmap vi.t = ∅ := by
        rw [makeS_empty_iff h]
        simp only [List.mem_flatMap, mem_handlerTypes]
        constructor
        · exact fun hall t ht => hall t ⟨_, ⟨vi, hvi, rfl, rfl⟩, ht⟩
        · rintro hall t ⟨_, ⟨vj, hvj, hid, rfl⟩, ht⟩
          have heq := hk.known vj hvj
          rw [hid, hk.known vi hvi] at heq
          exact hall t ((Prod.mk.inj (Option.some.inj heq)).1 ▸ ht)
      rw [htypes]
      split <;> simp_all
  | cookie x n t tag =>
    simp only [processDeclaration, declCrossing, Unbound, List.mem_singleton, forall_eq,
      ← sins_empty_iff h]
    split <;> simp_all
  | valRec vis =>
    simp only [processDeclaration, declCrossing, Unbound, expressions, List.flatMap_map]
    generalize st.errors = errors
    induction vis generalizing errors with
    | nil => simp
    | cons vi vis ih =>
      rw [List.foldl_cons, ih, walkExpression_nil_iff h]
      simp [or_imp, forall_and, and_assoc]
  | val vi | view x n s e c | policy e =>
    simp [processDeclaration, declCrossing, Unbound, expressions, walkExpression_nil_iff h]
  | table td | index e1 e2 | task e1 e2 =>
    simp [processDeclaration, declCrossing, Unbound, expressions, walkExpression_nil_iff h,
      or_imp, forall_and, and_assoc]
  | _ => simp [processDeclaration, declCrossing, Unbound, expressions]

end

-- ---------------------------------------------------------------------------
-- Names in scope
-- ---------------------------------------------------------------------------

/-- The names of a type are declared before it. -/
def Scoped (defs : List TypeDef) (t : Constructor) : Prop :=
  ∀ n, .named n ∈ t.nodes → n ∈ defs.map TypeDef.id

theorem named_refs {c : Constructor} (h : .named n ∈ c.nodes) : Ref.con n ∈ c.refs := by
  induction c with
  | record k fields ih =>
    simp only [Constructor.nodes, List.mem_cons, reduceCtorEq, false_or] at h
    rw [Constructor.refs]
    induction fields with
    | nil => simp [Constructor.fieldNodes] at h
    | cons f fields ihf =>
      simp only [Constructor.fieldNodes, List.mem_append] at h
      simp only [Constructor.fieldRefs, List.mem_append]
      obtain (h | h) | h := h
      · exact .inl (.inl ((ih f List.mem_cons_self).1 h))
      · exact .inl (.inr ((ih f List.mem_cons_self).2 h))
      · exact .inr (ihf (fun g hg => ih g (List.mem_cons_of_mem _ hg)) h)
  | tuple cs ih =>
    simp only [Constructor.nodes, List.mem_cons, reduceCtorEq, false_or] at h
    rw [Constructor.refs]
    induction cs with
    | nil => simp [Constructor.listNodes] at h
    | cons c cs ihc =>
      simp only [Constructor.listNodes, List.mem_append] at h
      simp only [Constructor.listRefs, List.mem_append]
      exact h.imp (ih c List.mem_cons_self) (ihc fun g hg => ih g (List.mem_cons_of_mem _ hg))
  | tFun c1 c2 ih1 ih2 | app c1 c2 ih1 ih2 | concat c1 c2 ih1 ih2 =>
    simp only [Constructor.nodes, List.mem_cons, reduceCtorEq, List.mem_append, false_or] at h
    exact List.mem_append.mpr (h.imp ih1 ih2)
  | tCFun x k c ih | abs x k c ih | kAbs x c ih | tKFun x c ih | tRecord c ih | kApp c k ih
  | proj c i ih =>
    simp only [Constructor.nodes, List.mem_cons, reduceCtorEq, false_or] at h
    exact ih h
  | _ => simp_all [Constructor.nodes, Constructor.refs]

theorem serialized_refs (ht : t ∈ serialized e) (hr : r ∈ t.refs) : r ∈ e.refsWith pcr := by
  obtain ⟨e', he', ht⟩ := List.mem_filterMap.mp ht
  refine node_refs he' ?_
  unfold serializedAt at ht
  split at ht
  · split at ht
    · obtain rfl := Option.some.inj ht
      exact List.mem_append_right _ hr
    · cases ht
  · cases ht

theorem expressions_refs (he : e ∈ expressions d) (hr : r ∈ e.refsWith pcr) :
    r ∈ d.refsWith pcr := by
  cases d with
  | valRec vis =>
    obtain ⟨vi, hvi, rfl⟩ := List.mem_map.mp he
    exact List.mem_flatMap.mpr ⟨vi, hvi, List.mem_append_right _ hr⟩
  | val vi =>
    obtain rfl := List.mem_singleton.mp he
    exact List.mem_append_right _ hr
  | table td | index e1 e2 | task e1 e2 =>
    simp only [expressions, List.mem_cons, List.not_mem_nil, or_false] at he
    rcases he with rfl | rfl <;>
      simp [Declaration.refsWith, TableDecl.refsWith, Expression.listRefs, hr]
  | view x n s e c =>
    obtain rfl := List.mem_singleton.mp he
    exact List.mem_append_right _ hr
  | policy e =>
    obtain rfl := List.mem_singleton.mp he
    exact hr
  | _ => cases he

theorem argTypes_refs (ht : t' ∈ argTypes t) (hr : r ∈ t'.refs) : r ∈ t.refs := by
  induction t with
  | tFun dom ran _ ih =>
    rw [argTypes] at ht
    rcases List.mem_append.mp ht with ht | ht
    · split at ht
      · cases ht
      · obtain rfl := List.mem_singleton.mp ht
        exact List.mem_append_left _ hr
    · exact List.mem_append_right _ (ih ht)
  | _ => cases ht

/-- What a declaration lets cross is mentioned by it or by a binding. -/
theorem crossing_refs (ht : t ∈ declCrossing file d) (hr : r ∈ t.refs) :
    r ∈ d.refs ∨ ∃ d' ∈ file, r ∈ d'.refs := by
  cases d with
  | «export» ek n b =>
    obtain ⟨t', ht', ht⟩ := List.mem_flatMap.mp ht
    obtain ⟨vi, hvi, -, rfl⟩ := mem_handlerTypes.mp ht'
    obtain ⟨d', hd', hvi⟩ := List.mem_flatMap.mp hvi
    refine .inr ⟨d', hd', ?_⟩
    have hvi' : r ∈ vi.refsWith PatternConstructor.refs :=
      List.mem_append_left _ (argTypes_refs ht hr)
    cases d' with
    | val vj =>
      obtain rfl := List.mem_singleton.mp hvi
      exact hvi'
    | valRec vis => exact List.mem_flatMap.mpr ⟨vi, hvi, hvi'⟩
    | _ => cases hvi
  | cookie x n t' tag =>
    obtain rfl := List.mem_singleton.mp ht
    exact .inl hr
  | _ =>
    obtain ⟨e, he, ht⟩ := List.mem_flatMap.mp ht
    exact .inl (expressions_refs he (serialized_refs ht hr))

theorem con_defined (h : .con n ∈ d.defines) : n ∈ (declTypeDefs d).map TypeDef.id := by
  cases d <;> simp_all [Declaration.defines, declTypeDefs]

theorem typeDefs_nodup (hnd : (file.flatMap Declaration.defines).Nodup) :
    ((typeDefs file).map TypeDef.id).Nodup := by
  refine .of_map Ref.con (hnd.sublist ?_)
  induction file with
  | nil => exact .slnil
  | cons d file ih =>
    rw [List.flatMap_cons, typeDefs, List.flatMap_cons, List.map_append, List.map_append]
    refine .append ?_ (ih (List.flatMap_cons ▸ hnd).of_append_right)
    cases d <;> simp [declTypeDefs, Declaration.defines, Function.comp_def]

/-- The names of a type that crosses are declared before the declaration that
lets it cross. -/
theorem crossing_scoped (h : DefinedBefore [] (pre ++ d :: post)) (ht : t ∈ declCrossing pre d) :
    Scoped (typeDefs pre) t := by
  intro n hn
  suffices ∃ d' ∈ pre, Ref.con n ∈ d'.defines by
    obtain ⟨d', hd', hdef⟩ := this
    rw [typeDefs, List.map_flatMap]
    exact List.mem_flatMap.mpr ⟨d', hd', con_defined hdef⟩
  obtain hr | ⟨d', hd', hr⟩ := crossing_refs ht (named_refs hn)
  · obtain hdef | hdef := definedBefore_split h hr
    · cases d <;> simp [Declaration.defines, declCrossing, expressions] at hdef ht
    · exact hdef
  · obtain ⟨pre1, pre2, rfl⟩ := List.append_of_mem hd'
    rw [List.append_assoc, List.cons_append] at h
    obtain hdef | ⟨d'', hd'', hdef⟩ := definedBefore_split h hr
    · exact ⟨d', hd', hdef⟩
    · exact ⟨d'', List.mem_append_left _ (by simpa using hd''), hdef⟩

theorem split_unique {d d' : TypeDef} (hnd : ((a ++ d :: b).map TypeDef.id).Nodup)
    (h : a ++ d :: b = a' ++ d' :: b') (hid : d.id = d'.id) : a = a' ∧ d = d' := by
  have hd : d = d' := List.inj_on_of_nodup_map hnd (by simp) (by simp [h]) hid
  subst hd
  have hrest : d ∉ a ++ b := (List.nodup_cons.mp (List.nodup_middle.mp hnd.of_map)).1
  rw [List.mem_append, not_or] at hrest
  exact ⟨((List.append_cons_inj_of_notMem hrest.1 hrest.2).mp h).1, rfl⟩

/-- Later declarations do not matter to a type whose names are in scope. -/
theorem reachesBack_append (hnd : ((defs ++ defs').map TypeDef.id).Nodup) (hs : Scoped defs t) :
    ReachesBack (defs ++ defs') t p ↔ ReachesBack defs t p := by
  constructor
  · intro h
    cases h with
    | ffi h => exact .ffi h
    | named hnode hsplit hc' hreach =>
      obtain ⟨d0, hd0, hid⟩ := List.mem_map.mp (hs _ hnode)
      obtain ⟨e0, l0, rfl⟩ := List.append_of_mem hd0
      rw [List.append_assoc, List.cons_append] at hsplit hnd
      obtain ⟨rfl, rfl⟩ := split_unique hnd hsplit hid
      exact .named hnode rfl hc' hreach
  · intro h
    cases h with
    | ffi h => exact .ffi h
    | named hnode hsplit hc' hreach =>
      exact .named hnode (by rw [hsplit, List.append_assoc, List.cons_append]) hc' hreach

-- ---------------------------------------------------------------------------
-- The whole file
-- ---------------------------------------------------------------------------

def run (settings : Settings) (file : File) : State :=
  file.foldl (processDeclaration settings) ⟨fun _ => none, fun _ => none, []⟩

theorem run_concat (settings : Settings) (file : File) (d : Declaration) :
    run settings (file ++ [d]) = processDeclaration settings (run settings file) d := by
  simp [run]

theorem run_emap (settings : Settings) (file : File) :
    (run settings file).emap = (bindings file).foldl enterBinding fun _ => none := by
  induction file using List.reverseRecOn with
  | nil => rfl
  | append_singleton file d ih =>
    rw [run_concat, emap_process, ih, ← List.foldl_append]
    simp [bindings]

theorem run_summarises (settings : Settings) (file : File)
    (hnd : ((typeDefs file).map TypeDef.id).Nodup) :
    Summarises settings (run settings file).cmap (typeDefs file) := by
  induction file using List.reverseRecOn with
  | nil => exact .nil
  | append_singleton file d ih =>
    have hsplit : typeDefs (file ++ [d]) = typeDefs file ++ declTypeDefs d := by simp [typeDefs]
    rw [hsplit] at hnd ⊢
    rw [run_concat]
    exact summarises_process d (ih (List.map_append ▸ hnd).of_append_left) hnd

/-- A file passes when each declaration lets only clean types cross. -/
theorem run_errors (settings : Settings) (file : File)
    (hnd : (file.flatMap Declaration.defines).Nodup) :
    (run settings file).errors = [] ↔ ∀ pre d post, file = pre ++ d :: post →
      ¬ Unbound pre d ∧ ∀ t ∈ declCrossing pre d, Clean settings (typeDefs pre) t := by
  induction file using List.reverseRecOn with
  | nil => simp [run]
  | append_singleton file d ih =>
    have hnd' : (file.flatMap Declaration.defines).Nodup := by
      rw [List.flatMap_append] at hnd
      exact hnd.of_append_left
    rw [run_concat, errors_process d (run_summarises settings file (typeDefs_nodup hnd'))
      (run_emap settings file ▸ Knows.enter _ (bindings_nodup hnd')), ih hnd']
    constructor
    · rintro ⟨hpre, hd⟩ pre d' post hsplit
      obtain rfl | ⟨post, d'', rfl⟩ := post.eq_nil_or_concat'
      · obtain ⟨rfl, hdd⟩ := List.append_inj' hsplit rfl
        exact (List.cons.inj hdd).1 ▸ hd
      · have hsplit' : file ++ [d] = (pre ++ d' :: post) ++ [d''] := by simpa using hsplit
        exact hpre pre d' post (List.append_inj' hsplit' rfl).1
    · exact fun hall => ⟨fun pre d' post hsplit => hall pre d' (post ++ [d]) (by simp [hsplit]),
        hall file d [] rfl⟩

theorem unbound_before (h : DefinedBefore [] (pre ++ d :: post))
    (hnd : ((pre ++ d :: post).flatMap Declaration.defines).Nodup) :
    Unbound (pre ++ d :: post) d ↔ Unbound pre d := by
  cases d with
  | «export» ek n b =>
    exact ⟨fun hall vi hvi hid => hall vi ((bindings_before h hnd hid).mpr hvi) hid,
      fun hall vi hvi hid => hall vi ((bindings_before h hnd hid).mp hvi) hid⟩
  | _ => exact Iff.rfl

theorem declCrossing_before (h : DefinedBefore [] (pre ++ d :: post))
    (hnd : ((pre ++ d :: post).flatMap Declaration.defines).Nodup) :
    t ∈ declCrossing (pre ++ d :: post) d ↔ t ∈ declCrossing pre d := by
  cases d with
  | «export» ek n b =>
    simp only [declCrossing, List.mem_flatMap, mem_handlerTypes]
    refine exists_congr fun t' => and_congr_left fun _ => exists_congr fun vi => ?_
    constructor
    · rintro ⟨hvi, hid, rfl⟩
      exact ⟨(bindings_before h hnd hid).mp hvi, hid, rfl⟩
    · rintro ⟨hvi, hid, rfl⟩
      exact ⟨(bindings_before h hnd hid).mpr hvi, hid, rfl⟩
  | _ => exact Iff.rfl

/-- The check passes when every export names a value and every type that crosses
is clean as far as the way back goes. -/
theorem check_nil_iff (settings : Settings) (file : File) (h : DefinedBefore [] file)
    (hnd : (file.flatMap Declaration.defines).Nodup) :
    check settings file = [] ↔ (∀ d ∈ file, ¬ Unbound file d) ∧
      ∀ t ∈ crossing file, Clean settings (typeDefs file) t := by
  have hstep (pre : File) (d : Declaration) (post : File) (hsplit : file = pre ++ d :: post) :
      (¬ Unbound pre d ∧ ∀ t ∈ declCrossing pre d, Clean settings (typeDefs pre) t) ↔
        ¬ Unbound file d ∧ ∀ t ∈ declCrossing file d, Clean settings (typeDefs file) t := by
    subst hsplit
    rw [unbound_before h hnd]
    refine and_congr_right fun _ => forall_congr' fun t => ?_
    rw [declCrossing_before h hnd]
    refine forall_congr' fun ht => forall_congr' fun p => ?_
    have happend : typeDefs (pre ++ d :: post) = typeDefs pre ++ typeDefs (d :: post) :=
      List.flatMap_append
    rw [happend, reachesBack_append (happend ▸ typeDefs_nodup hnd) (crossing_scoped h ht)]
  rw [check, ← run, run_errors settings file hnd]
  constructor
  · intro hall
    have hd (d : Declaration) (hd : d ∈ file) :
        ¬ Unbound file d ∧ ∀ t ∈ declCrossing file d, Clean settings (typeDefs file) t := by
      obtain ⟨pre, post, hsplit⟩ := List.append_of_mem hd
      exact (hstep pre d post hsplit).mp (hall pre d post hsplit)
    refine ⟨fun d hmem => (hd d hmem).1, fun t ht => ?_⟩
    obtain ⟨d, hmem, ht⟩ := List.mem_flatMap.mp ht
    exact (hd d hmem).2 t ht
  · rintro ⟨hbound, hclean⟩ pre d post hsplit
    have hd : d ∈ file := by simp [hsplit]
    exact (hstep pre d post hsplit).mpr
      ⟨hbound d hd, fun t ht => hclean t (List.mem_flatMap.mpr ⟨d, hd, ht⟩)⟩

/-- `outer` holds a value of `inner`, which is declared after it in one group and
holds a secret; the exported `save` takes an `outer`. -/
def forwardFile : File :=
  [.datatype [⟨"outer", 1, [], [("Outer", 11, some (.named 2))]⟩,
      ⟨"inner", 2, [], [("Inner", 12, some (.ffi "Vault" "secret"))]⟩],
    .val ⟨"save", 3, .tFun (.named 1) .unit, .abs "x" (.named 1) .unit (.record []), "save"⟩,
    .export (.action .readWrite) 3 false]

def nothingCrosses : Settings := ⟨∅, ∅, ∅, false, ∅⟩

theorem forward_reaches : Reaches (typeDefs forwardFile) (.named 1) ("Vault", "secret") := by
  have hdefs : typeDefs forwardFile = [⟨1, [.named 2]⟩, ⟨2, [.ffi "Vault" "secret"]⟩] := rfl
  rw [hdefs]
  refine .named (d := ⟨1, [.named 2]⟩) List.mem_cons_self List.mem_cons_self List.mem_cons_self ?_
  refine .named (d := ⟨2, [.ffi "Vault" "secret"]⟩) List.mem_cons_self
    (List.mem_cons_of_mem _ List.mem_cons_self) List.mem_cons_self ?_
  exact .ffi List.mem_cons_self

end UrWeb.Core.MarshalCheck
