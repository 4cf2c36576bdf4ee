import UrWeb.Mono.Semantics
import UrWeb.Mono.Utilities

/-!
# Corresponding evaluations

Evaluation respects any relation on the code inside values: if the parts of two
expressions correspond, so do the expressions.
-/

namespace UrWeb.Mono

open Behaviour

section
variable {R : CodeRel} {W : World}

abbrev ValuesRel (R : CodeRel) : List Value → List Value → Prop := List.Forall₂ (ValueRel R)

/-- Two evaluations that match each other up to the code in values and events. -/
abbrev Similar (R : CodeRel) : Comp Value → Comp Value → Prop :=
  Corresponds (HistoryRel R) (ValueRel R)

-- ---------------------------------------------------------------------------
-- Values
-- ---------------------------------------------------------------------------

theorem scalar_rel (h : ValueRel R v v') : v.scalar = v'.scalar := by
  cases h with
  | prim => rfl
  | node tag hargs =>
    cases hargs with
    | nil => rfl
    | cons => simp [Value.scalar]
  | code => rfl

theorem mapM_scalar_rel (h : ValuesRel R vs vs') : vs.mapM Value.scalar = vs'.mapM Value.scalar := by
  induction h with
  | nil => rfl
  | cons hv _ ih => simp [List.mapM_cons, scalar_rel hv, ih]

theorem scalar_value_rel (r : Scalar) : ValueRel R r.value r.value := by
  cases r with
  | prim p => exact .prim _
  | bool b => exact .node _ .nil

theorem getElem?_rel (h : ValuesRel R vs vs') (n : Nat) : Option.Rel (ValueRel R) vs[n]? vs'[n]? := by
  induction h generalizing n with
  | nil => exact .none
  | cons hv _ ih =>
    cases n with
    | zero => exact .some hv
    | succ n => exact ih n

theorem lookup_rel (names : List String) (h : ValuesRel R vs vs') :
    Option.Rel (ValueRel R) ((names.zip vs).lookup x) ((names.zip vs').lookup x) := by
  induction h generalizing names with
  | nil => cases names <;> exact .none
  | cons hv _ ih =>
    cases names with
    | nil => exact .none
    | cons y names =>
      simp only [List.zip_cons_cons, List.lookup_cons]
      split
      · exact .some hv
      · exact ih names

theorem field_rel (h : ValueRel R v v') : Option.Rel (ValueRel R) (v.field x) (v'.field x) := by
  cases h with
  | prim | code => exact .none
  | node tag hargs =>
    cases tag with
    | record names => exact lookup_rel names hargs
    | _ => exact .none

theorem matches_rel (p : Pat) (hv : ValueRel R v v') (henv : ValuesRel R env env') :
    Option.Rel (ValuesRel R) (p.matches v env) (p.matches v' env') := by
  induction p generalizing v v' env env' with
  | var x t => exact .some (.cons hv henv)
  | prim p =>
    cases hv with
    | prim q =>
      simp only [Pat.matches]
      split
      · exact .some henv
      · exact .none
    | node | code => exact .none
  | con dk pc arg ih =>
    cases hv with
    | prim | code => exact .none
    | node tag hargs =>
      cases tag with
      | con pc' =>
        simp only [Pat.matches]
        split
        · cases arg with
          | none =>
            cases hargs with
            | nil => exact .some henv
            | cons => exact .none
          | some p =>
            cases hargs with
            | nil => exact .none
            | cons hw hrest =>
              cases hrest with
              | nil => exact ih p rfl hw henv
              | cons => exact .none
        · exact .none
      | _ => exact .none
  | record fields ih =>
    simp only [Pat.matches]
    induction fields generalizing env env' with
    | nil => exact .some henv
    | cons f fields ihf =>
      simp only [Pat.fieldMatches]
      have hfield := field_rel (x := f.1) hv
      generalize v.field f.1 = w, v'.field f.1 = w' at hfield
      cases hfield with
      | none => exact .none
      | some hw =>
        simp only [Option.bind_some]
        have hsub := ih f List.mem_cons_self hw henv
        generalize f.2.1.matches _ env = m, f.2.1.matches _ env' = m' at hsub
        cases hsub with
        | none => exact .none
        | some henv1 => exact ihf (fun g hg => ih g (List.mem_cons_of_mem _ hg)) henv1
  | none t =>
    cases hv with
    | prim | code => exact .none
    | node tag hargs =>
      cases tag with
      | none =>
        cases hargs with
        | nil => exact .some henv
        | cons => exact .none
      | _ => exact .none
  | some t p ih =>
    cases hv with
    | prim | code => exact .none
    | node tag hargs =>
      cases tag with
      | some =>
        cases hargs with
        | nil => exact .none
        | cons hw hrest =>
          cases hrest with
          | nil => exact ih hw henv
          | cons => exact .none
      | _ => exact .none

/-- Data is related to itself only. -/
theorem valueRel_iff_of_isData (v : Value) (hd : v.isData = true) : ValueRel R v v' ↔ v' = v := by
  induction v generalizing v' with
  | prim p =>
    constructor
    · intro h
      cases h
      rfl
    · rintro rfl
      exact .prim p
  | node tag args ih =>
    have hargs (args' : List Value) : ValuesRel R args args' ↔ args' = args := by
      rw [Value.isData] at hd
      induction args generalizing args' with
      | nil => simp
      | cons a args iha =>
        rw [Value.allData, Bool.and_eq_true] at hd
        have ih' := iha (fun v hv => ih v (List.mem_cons_of_mem _ hv)) hd.2
        have iha (v' : Value) : ValueRel R a v' ↔ v' = a := ih a List.mem_cons_self hd.1
        simp [List.forall₂_cons_left_iff, iha, ih']
    constructor
    · intro h
      cases h with
      | node tag h => rw [(hargs _).mp h]
    · rintro rfl
      exact .node tag ((hargs _).mpr rfl)
  | code => simp [Value.isData] at hd

theorem written_rel (h : EventRel R ev ev') : ev'.written = ev.written := by
  cases h with
  | mk op hargs ho =>
    cases op with
    | write =>
      cases hargs with
      | nil => rfl
      | cons hv hrest =>
        cases hv with
        | prim p => cases p <;> cases hrest <;> rfl
        | node | code => rfl
    | _ => rfl

/-- Related histories have the same page. -/
theorem page_rel (h : HistoryRel R k k') : page k' = page k := by
  induction h with
  | nil => rfl
  | cons he _ ih =>
    rw [page, List.filterMap_cons, written_rel he]
    simp only [page, List.filterMap_cons] at ih ⊢
    rw [ih]

-- ---------------------------------------------------------------------------
-- Operations
-- ---------------------------------------------------------------------------

theorem similar_perform (op : Op) (h : ValuesRel R args args') :
    Similar R (perform W op args) (perform W op args') where
  forth hh hr := by
    obtain ⟨hr, rfl⟩ := hr
    obtain ⟨o', hr', ho⟩ := W.forth hh h hr
    exact ⟨_, o', ⟨hr', rfl⟩, List.rel_append hh (.cons (.mk op h ho) .nil), ho⟩
  back hh hr := by
    obtain ⟨hr, rfl⟩ := hr
    obtain ⟨o, hr', ho⟩ := W.back hh h hr
    exact ⟨_, o, ⟨hr', rfl⟩, List.rel_append hh (.cons (.mk op h ho) .nil), ho⟩

theorem similar_halt (op : Op) (h : ValuesRel R args args') :
    Similar R (halt op args) (halt op args') where
  forth hh hr := by
    obtain ⟨rfl, rfl⟩ := hr
    exact ⟨_, _, ⟨rfl, rfl⟩, List.rel_append hh (.cons (.mk op h .abort) .nil), .abort⟩
  back hh hr := by
    obtain ⟨rfl, rfl⟩ := hr
    exact ⟨_, _, ⟨rfl, rfl⟩, List.rel_append hh (.cons (.mk op h .abort) .nil), .abort⟩

section
variable {H : History → History → Prop}

theorem similar_operate (s : String) (h : ValuesRel R args args') :
    Corresponds H (ValueRel R) (operate W s args) (operate W s args') := by
  rw [operate, operate, mapM_scalar_rel h]
  split
  · constructor
    · rintro h h' k o' hh ⟨rfl, rfl⟩
      exact ⟨_, _, ⟨rfl, rfl⟩, hh, .map_self scalar_value_rel _⟩
    · rintro h h' k o' hh ⟨rfl, rfl⟩
      exact ⟨_, _, ⟨rfl, rfl⟩, hh, .map_self scalar_value_rel _⟩
  · exact .stuck

theorem similar_strcat (h1 : ValueRel R v1 v1') (h2 : ValueRel R v2 v2') :
    Corresponds H (ValueRel R) (strcat v1 v2) (strcat v1' v2') := by
  cases h1 with
  | node | code => exact .stuck
  | prim p =>
    cases h2 with
    | prim q =>
      cases p <;> cases q <;> first | exact .stuck | exact .pure (.prim _)
    | node | code => cases p <;> exact .stuck

/-- The operations in `ops` respect a relation on histories. -/
structure Respects (H : History → History → Prop) (R : CodeRel) (W : World) (ops : Op → Prop) :
    Prop where
  perform : ops op → ValuesRel R args args' →
    Corresponds H (ValueRel R) (perform W op args) (perform W op args')
  halt : ops op → ValuesRel R args args' →
    Corresponds H (ValueRel R) (halt op args) (halt op args')

theorem respects_history : Respects (HistoryRel R) R W fun _ => True :=
  ⟨fun _ h => similar_perform _ h, fun _ h => similar_halt _ h⟩

-- ---------------------------------------------------------------------------
-- Expressions
-- ---------------------------------------------------------------------------

/-- The operation that a node performs. -/
def Exp.op : Exp → Option Op
  | .ffi m x | .ffiApp m x _ => .some (.ffi m x)
  | .error _ _ => .some .error
  | .returnBlob blob _ _ => .some (.returnBlob blob.isSome)
  | .redirect _ _ => .some .redirect
  | .write _ => .some .write
  | .query _ _ _ _ => .some .query
  | .dml _ fm => .some (.dml fm)
  | .nextval _ => .some .nextval
  | .setval _ _ => .some .setval
  | .uurlify _ t b => .some (.uurlify t b)
  | .serverCall _ t eff fm => .some (.serverCall t eff fm)
  | .recv _ t => .some (.recv t)
  | .sleep _ => .some .sleep
  | .spawn _ => .some .spawn
  | _ => .none

/-- What the part of a node is kept for that is not evaluated with the node. -/
def Exp.codeKind : Exp → Option CodeKind
  | .abs _ _ _ _ => .some .function
  | .javaScript mode _ => .some (.script mode)
  | _ => .none

variable {call call' : Value → Value → Comp Value} {global global' : Nat → Comp Value}
variable {g : Exp → Exp} {ops : Op → Prop}

/-- An expression and its image evaluate alike in related environments. -/
def EvaluatesAlike (H : History → History → Prop) (R : CodeRel) (W : World)
    (call call' : Value → Value → Comp Value) (global global' : Nat → Comp Value) (e e' : Exp) :
    Prop :=
  ∀ env env', ValuesRel R env env' →
    Corresponds H (ValueRel R) (evalWith W call global e env) (evalWith W call' global' e' env')

theorem similar_option {arg : Option Exp}
    (h : ∀ c ∈ arg, EvaluatesAlike H R W call call' global global' c (g c))
    (henv : ValuesRel R env env') :
    List.Forall₂ (Corresponds H (ValueRel R)) (evalOption W call global arg env)
      (evalOption W call' global' (arg.map g) env') := by
  cases arg with
  | none => exact .nil
  | some e => exact .cons (h e rfl _ _ henv) .nil

theorem similar_args {args : List (Exp × Typ)}
    (h : ∀ a ∈ args, EvaluatesAlike H R W call call' global global' a.1 (g a.1))
    (henv : ValuesRel R env env') :
    List.Forall₂ (Corresponds H (ValueRel R)) (evalArgs W call global args env)
      (evalArgs W call' global' (args.map fun a => (g a.1, a.2)) env') := by
  induction args with
  | nil => exact .nil
  | cons a args ih =>
    exact .cons (h a List.mem_cons_self _ _ henv) (ih fun b hb => h b (List.mem_cons_of_mem _ hb))

theorem similar_fields {xets : List (String × Exp × Typ)}
    (h : ∀ f ∈ xets, EvaluatesAlike H R W call call' global global' f.2.1 (g f.2.1))
    (henv : ValuesRel R env env') :
    List.Forall₂ (Corresponds H (ValueRel R)) (evalFields W call global xets env)
      (evalFields W call' global' (xets.map fun f => (f.1, g f.2.1, f.2.2)) env') := by
  induction xets with
  | nil => exact .nil
  | cons a xets ih =>
    exact .cons (h a List.mem_cons_self _ _ henv) (ih fun b hb => h b (List.mem_cons_of_mem _ hb))

theorem similar_list {es : List Exp}
    (h : ∀ c ∈ es, EvaluatesAlike H R W call call' global global' c (g c))
    (henv : ValuesRel R env env') :
    List.Forall₂ (Corresponds H (ValueRel R)) (evalList W call global es env)
      (evalList W call' global' (es.map g) env') := by
  induction es with
  | nil => exact .nil
  | cons a es ih =>
    exact .cons (h a List.mem_cons_self _ _ henv) (ih fun b hb => h b (List.mem_cons_of_mem _ hb))

theorem similar_arms {arms : List (Pat × Exp)}
    (h : ∀ a ∈ arms, EvaluatesAlike H R W call call' global global' a.2 (g a.2))
    (hv : ValueRel R v v') (henv : ValuesRel R env env') :
    Corresponds H (ValueRel R) (evalArms W call global arms v env)
      (evalArms W call' global' (arms.map fun a => (a.1, g a.2)) v' env') := by
  induction arms with
  | nil => exact .stuck
  | cons a arms ih =>
    simp only [List.map_cons, evalArms]
    have hmatch := matches_rel a.1 hv henv
    generalize a.1.matches v env = m, a.1.matches v' env' = m' at hmatch
    cases hmatch with
    | none => exact ih fun b hb => h b (List.mem_cons_of_mem _ hb)
    | some henv1 => exact h a List.mem_cons_self _ _ henv1

/-- If the parts of an expression evaluate alike, so does the whole. -/
theorem similar_node (e : Exp) (hresp : Respects H R W ops) (hop : ∀ op ∈ e.op, ops op)
    (hcall : ∀ f f' v v', ValueRel R f f' → ValueRel R v v' →
      Corresponds H (ValueRel R) (call f v) (call' f' v'))
    (hglobal : ∀ n, e = .named n → Corresponds H (ValueRel R) (global n) (global' n))
    (h : e.codeKind = none → ∀ c ∈ e.children,
      EvaluatesAlike H R W call call' global global' c (g c))
    (hcode : ∀ kind ∈ e.codeKind, ∀ c ∈ e.children, ∀ env env', ValuesRel R env env' →
      R kind env c env' (g c)) :
    EvaluatesAlike H R W call call' global global' e (e.mapChildren g) := by
  intro env env' henv
  have hpure1 {tag : Tag} (v v') (hv : ValueRel R v v') :
      Corresponds H (ValueRel R) (Run.pure (.node tag [v])) (Run.pure (.node tag [v'])) :=
    .pure (.node tag (.cons hv .nil))
  have hperform1 {op : Op} (hop : ops op) (v v') (hv : ValueRel R v v') :
      Corresponds H (ValueRel R) (perform W op [v]) (perform W op [v']) :=
    hresp.perform hop (.cons hv .nil)
  cases e with
  | prim p => exact .pure (.prim _)
  | rel n => exact .ofOption (getElem?_rel henv n)
  | named n => exact hglobal n rfl
  | con dk pc arg =>
    refine (Corresponds.all (similar_option (fun c hc => h rfl c ?_) henv)).bind fun vs vs' hvs =>
      .pure (.node _ hvs)
    exact Option.mem_toList.mpr hc
  | none t => exact .pure (.node _ .nil)
  | some t e => exact (h rfl e List.mem_cons_self _ _ henv).bind hpure1
  | ffi m x => exact hresp.perform (hop _ rfl) .nil
  | ffiApp m x args =>
    refine (Corresponds.all (similar_args (fun a ha => h rfl a.1 ?_) henv)).bind fun vs vs' hvs =>
      hresp.perform (hop _ rfl) hvs
    exact List.mem_map_of_mem ha
  | app e1 e2 =>
    refine (h rfl e1 (by simp [Exp.children]) _ _ henv).bind fun f f' hf => ?_
    exact (h rfl e2 (by simp [Exp.children]) _ _ henv).bind fun v v' hv => hcall f f' v v' hf hv
  | abs x dom ran body => exact .pure (.code (hcode _ rfl _ List.mem_cons_self _ _ henv))
  | unop s e =>
    exact (h rfl e List.mem_cons_self _ _ henv).bind fun v v' hv => similar_operate s (.cons hv .nil)
  | binop bi s e1 e2 =>
    refine (h rfl e1 (by simp [Exp.children]) _ _ henv).bind fun v1 v1' hv1 => ?_
    exact (h rfl e2 (by simp [Exp.children]) _ _ henv).bind fun v2 v2' hv2 =>
      similar_operate s (.cons hv1 (.cons hv2 .nil))
  | record xets =>
    refine (Corresponds.all (similar_fields (fun f hf => h rfl f.2.1 ?_) henv)).bind fun vs vs' hvs => ?_
    · exact List.mem_map.mpr ⟨f, hf, rfl⟩
    · rw [show (xets.map fun f => (f.1, g f.2.1, f.2.2)).map Prod.fst = xets.map Prod.fst by simp]
      exact .pure (.node _ hvs)
  | field e x =>
    exact (h rfl e List.mem_cons_self _ _ henv).bind fun v v' hv => .ofOption (field_rel hv)
  | case disc arms info =>
    refine (h rfl disc List.mem_cons_self _ _ henv).bind fun v v' hv => similar_arms (fun a ha => ?_) hv henv
    exact h rfl a.2 (List.mem_cons_of_mem _ (List.mem_map_of_mem ha))
  | strcat e1 e2 =>
    refine (h rfl e1 (by simp [Exp.children]) _ _ henv).bind fun v1 v1' hv1 => ?_
    exact (h rfl e2 (by simp [Exp.children]) _ _ henv).bind fun v2 v2' hv2 => similar_strcat hv1 hv2
  | error e t =>
    exact (h rfl e List.mem_cons_self _ _ henv).bind fun v v' hv => hresp.halt (hop _ rfl) (.cons hv .nil)
  | returnBlob blob mimeType t =>
    refine (Corresponds.all (similar_option (fun c hc => h rfl c ?_) henv)).bind fun vs vs' hvs => ?_
    · exact List.mem_append_left _ (Option.mem_toList.mpr hc)
    · refine (h rfl mimeType (by simp [Exp.children]) _ _ henv).bind fun v v' hv => ?_
      rw [Option.isSome_map]
      exact hresp.halt (hop _ rfl) (List.rel_append hvs (.cons hv .nil))
  | redirect e t =>
    exact (h rfl e List.mem_cons_self _ _ henv).bind fun v v' hv => hresp.halt (hop _ rfl) (.cons hv .nil)
  | write e => exact (h rfl e List.mem_cons_self _ _ henv).bind (hperform1 (hop _ rfl))
  | seq e1 e2 =>
    refine (h rfl e1 (by simp [Exp.children]) _ _ henv).bind fun _ _ _ => ?_
    exact h rfl e2 (by simp [Exp.children]) _ _ henv
  | letIn x t e1 e2 =>
    refine (h rfl e1 (by simp [Exp.children]) _ _ henv).bind fun v v' hv => ?_
    exact h rfl e2 (by simp [Exp.children]) _ _ (.cons hv henv)
  | closure n envs =>
    exact (Corresponds.all (similar_list (h rfl) henv)).bind fun vs vs' hvs => .pure (.node _ hvs)
  | query qm q body initial =>
    refine (h rfl initial (by simp [Exp.children]) _ _ henv).bind fun acc acc' hacc => ?_
    refine (h rfl q (by simp [Exp.children]) _ _ henv).bind fun v v' hv => ?_
    refine (hperform1 (hop _ rfl) v v' hv).bind fun rows rows' hrows => ?_
    cases hrows with
    | prim | code => exact .stuck
    | node tag hrows =>
      cases tag with
      | rows =>
        refine .fold (fun b b' r r' hb hr => ?_) hrows hacc
        exact h rfl body (by simp [Exp.children]) _ _ (.cons hb (.cons hr henv))
      | _ => exact .stuck
  | dml e fm => exact (h rfl e List.mem_cons_self _ _ henv).bind (hperform1 (hop _ rfl))
  | nextval e => exact (h rfl e List.mem_cons_self _ _ henv).bind (hperform1 (hop _ rfl))
  | setval e1 e2 =>
    refine (h rfl e1 (by simp [Exp.children]) _ _ henv).bind fun v1 v1' hv1 => ?_
    exact (h rfl e2 (by simp [Exp.children]) _ _ henv).bind fun v2 v2' hv2 =>
      hresp.perform (hop _ rfl) (.cons hv1 (.cons hv2 .nil))
  | uurlify e t b => exact (h rfl e List.mem_cons_self _ _ henv).bind (hperform1 (hop _ rfl))
  | javaScript mode e => exact .pure (.code (hcode _ rfl _ List.mem_cons_self _ _ henv))
  | signalReturn e => exact (h rfl e List.mem_cons_self _ _ henv).bind hpure1
  | signalBind e1 e2 =>
    refine (h rfl e1 (by simp [Exp.children]) _ _ henv).bind fun v1 v1' hv1 => ?_
    exact (h rfl e2 (by simp [Exp.children]) _ _ henv).bind fun v2 v2' hv2 =>
      .pure (.node _ (.cons hv1 (.cons hv2 .nil)))
  | signalSource e => exact (h rfl e List.mem_cons_self _ _ henv).bind hpure1
  | serverCall e t eff fm => exact (h rfl e List.mem_cons_self _ _ henv).bind (hperform1 (hop _ rfl))
  | recv e t => exact (h rfl e List.mem_cons_self _ _ henv).bind (hperform1 (hop _ rfl))
  | sleep e => exact (h rfl e List.mem_cons_self _ _ henv).bind (hperform1 (hop _ rfl))
  | spawn e => exact (h rfl e List.mem_cons_self _ _ henv).bind (hperform1 (hop _ rfl))

end

end

end UrWeb.Mono
