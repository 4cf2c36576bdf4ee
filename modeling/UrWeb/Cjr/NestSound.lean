import UrWeb.Cjr.NestCheck
import Mathlib.Data.List.Basic
import Mathlib.Tactic.Tauto

/-!
# What the mark on a prepared query promises

`Starts` is evaluation up to the moment a prepared query is started: functions
are called by value, whichever expression they come from, a query evaluates its
initial value and its text and then its body once for each row. The summaries
count names only, and only names declared so far, so calls of other expressions
and of later functions go unseen; and queries inside the text or the initial
value of another keep the mark they came with.
-/

namespace UrWeb.Cjr

-- ---------------------------------------------------------------------------
-- Parts
-- ---------------------------------------------------------------------------

/-- The parts of an expression that marking goes into. -/
def Exp.visited : Exp → List Exp
  | .prim _ | .rel _ | .named _ | .none _ | .ffi _ _ => []
  | .con _ _ inner => inner.toList
  | .ffiApp _ _ args => args.map Prod.fst
  | .app f args => f :: args
  | .some _ e | .unop _ e | .field e _ | .error e _ | .redirect e _ | .write e | .dml e _ _
  | .nextval e _ | .uurlify e _ _ => [e]
  | .binop _ e1 e2 | .seq e1 e2 | .letIn _ _ e1 e2 | .setval e1 e2 => [e1, e2]
  | .record _ fields => fields.map Prod.snd
  | .case scrutinee arms _ => scrutinee :: arms.map Prod.snd
  | .returnBlob blob mimeType _ => blob.toList ++ [mimeType]
  | .query _ _ body _ _ => [body]

/-- The parts it does not go into: the text and the initial value of a query. -/
def Exp.hidden : Exp → List Exp
  | .query _ text _ initial _ => [text, initial]
  | _ => []

inductive Within : Exp → Exp → Prop
  | refl : Within e e
  | visited : c ∈ e.visited → Within e' c → Within e' e
  | hidden : c ∈ e.hidden → Within e' c → Within e' e

inductive Visible : Exp → Exp → Prop
  | refl : Visible e e
  | visited : c ∈ e.visited → Visible e' c → Visible e' e

theorem sizeOf_map {β γ : Type} [SizeOf β] [SizeOf γ] {c : γ} {f : β → γ} {l : List β}
    (hf : ∀ b, sizeOf (f b) ≤ sizeOf b) (h : c ∈ l.map f) : sizeOf c < sizeOf l := by
  obtain ⟨b, hb, rfl⟩ := List.mem_map.mp h
  exact Nat.lt_of_le_of_lt (hf b) (List.sizeOf_lt_of_mem hb)

theorem sizeOf_fst {β γ : Type} [SizeOf β] [SizeOf γ] (a : β × γ) : sizeOf a.1 ≤ sizeOf a := by
  cases a
  simp
  omega

theorem sizeOf_snd {β γ : Type} [SizeOf β] [SizeOf γ] (a : β × γ) : sizeOf a.2 ≤ sizeOf a := by
  cases a
  simp

theorem sizeOf_toList {o : Option Exp} (h : c ∈ o.toList) : sizeOf c < sizeOf o := by
  obtain rfl := Option.mem_toList.mp h
  simp

theorem Exp.visited_size (h : c ∈ Exp.visited e) : sizeOf c < sizeOf e := by
  cases e with
  | con dk pc inner =>
    have hc := sizeOf_toList h
    simp
    omega
  | ffiApp m f args =>
    have hc := sizeOf_map sizeOf_fst h
    simp
    omega
  | record i fields =>
    have hc := sizeOf_map sizeOf_snd h
    simp
    omega
  | app f args =>
    obtain rfl | h := List.mem_cons.mp h
    · simp
      omega
    · have hc := List.sizeOf_lt_of_mem h
      simp
      omega
  | case scrutinee arms info =>
    obtain rfl | h := List.mem_cons.mp h
    · simp
      omega
    · have hc := sizeOf_map sizeOf_snd h
      simp
      omega
  | returnBlob blob mimeType t =>
    obtain h | h := List.mem_append.mp h
    · have hc := sizeOf_toList h
      simp
      omega
    · obtain rfl := List.mem_singleton.mp h
      simp
      omega
  | binop _ e1 e2 | seq e1 e2 | letIn _ _ e1 e2 | setval e1 e2 =>
    simp only [Exp.visited, List.mem_cons, List.not_mem_nil, or_false] at h
    obtain rfl | rfl := h
    all_goals
      simp
      try omega
  | prim | rel | named | none | ffi => exact (List.not_mem_nil h).elim
  | _ =>
    obtain rfl := List.mem_singleton.mp h
    simp
    try omega

theorem Exp.hidden_size (h : c ∈ Exp.hidden e) : sizeOf c < sizeOf e := by
  cases e with
  | query qm text body initial prepared =>
    simp only [Exp.hidden, List.mem_cons, List.not_mem_nil, or_false] at h
    obtain rfl | rfl := h
    all_goals
      simp
      omega
  | _ => exact (List.not_mem_nil h).elim

/-- Induction over an expression by its parts. -/
theorem Exp.induct_parts {P : Exp → Prop}
    (h : ∀ e, (∀ c ∈ e.visited, P c) → (∀ c ∈ e.hidden, P c) → P e) (e : Exp) : P e :=
  h e (fun c _ => Exp.induct_parts h c) fun c _ => Exp.induct_parts h c
termination_by sizeOf e
decreasing_by
  · exact Exp.visited_size ‹_›
  · exact Exp.hidden_size ‹_›

-- ---------------------------------------------------------------------------
-- Marks and summaries
-- ---------------------------------------------------------------------------

section
variable (globals : Globals)

/-- The ids that an expression itself adds to those of its parts. -/
def Exp.ownUses : Exp → List Nat
  | .named n => globals n
  | .query _ _ _ _ prepared => preparedIds prepared
  | _ => []

/-- Every prepared query in an expression is marked by whether its body may use its id. -/
def Annotated (e : Exp) : Prop :=
  ∀ qm text body initial pq, Within (.query qm text body initial (some pq)) e →
    pq.nested = decide (pq.id ∈ expUses globals body)

/-- The queries inside the text or the initial value of another come with the right mark. -/
def HiddenAnnotated (e : Exp) : Prop :=
  ∀ e' c, Visible e' e → c ∈ e'.hidden → Annotated globals c

end

theorem mem_optUses : k ∈ optUses globals o ↔ ∃ e ∈ o.toList, k ∈ expUses globals e := by
  cases o <;> simp [optUses]

theorem mem_argUses :
    k ∈ argUses globals args ↔ ∃ e ∈ args.map Prod.fst, k ∈ expUses globals e := by
  induction args with
  | nil => simp [argUses]
  | cons a args ih =>
    simp only [argUses, List.mem_append, ih, List.map_cons, List.exists_mem_cons_iff]

theorem mem_listUses : k ∈ listUses globals es ↔ ∃ e ∈ es, k ∈ expUses globals e := by
  induction es with
  | nil => simp [listUses]
  | cons e es ih => simp only [listUses, List.mem_append, ih, List.exists_mem_cons_iff]

theorem mem_fieldUses :
    k ∈ fieldUses globals fields ↔ ∃ e ∈ fields.map Prod.snd, k ∈ expUses globals e := by
  induction fields with
  | nil => simp [fieldUses]
  | cons f fields ih =>
    simp only [fieldUses, List.mem_append, ih, List.map_cons, List.exists_mem_cons_iff]

theorem mem_armUses :
    k ∈ armUses globals arms ↔ ∃ e ∈ arms.map Prod.snd, k ∈ expUses globals e := by
  induction arms with
  | nil => simp [armUses]
  | cons a arms ih =>
    simp only [armUses, List.mem_append, ih, List.map_cons, List.exists_mem_cons_iff]

theorem mem_expUses : k ∈ expUses globals e ↔ k ∈ e.ownUses globals ∨
    (∃ c ∈ e.visited, k ∈ expUses globals c) ∨ ∃ c ∈ e.hidden, k ∈ expUses globals c := by
  cases e with
  | query qm text body initial prepared =>
    simp only [expUses, Exp.ownUses, Exp.visited, Exp.hidden, List.mem_append,
      List.exists_mem_cons_iff, List.not_mem_nil, false_and, exists_false, or_false]
    tauto
  | returnBlob blob mimeType t =>
    simp [expUses, Exp.ownUses, Exp.visited, Exp.hidden, mem_optUses, or_and_right, exists_or]
  | _ =>
    simp [expUses, Exp.ownUses, Exp.visited, Exp.hidden, mem_optUses, mem_argUses, mem_listUses,
      mem_fieldUses, mem_armUses]

-- ---------------------------------------------------------------------------
-- Marking
-- ---------------------------------------------------------------------------

theorem annotateOpt_eq (o : Option Exp) : annotateOpt globals o = o.map (annotateExp globals) := by
  cases o <;> rfl

theorem annotateArgs_eq (args : List (Exp × Typ)) :
    annotateArgs globals args = args.map fun a => (annotateExp globals a.1, a.2) := by
  induction args with
  | nil => rfl
  | cons a args ih => rw [annotateArgs, ih, List.map_cons]

theorem annotateList_eq (es : List Exp) :
    annotateList globals es = es.map (annotateExp globals) := by
  induction es with
  | nil => rfl
  | cons e es ih => rw [annotateList, ih, List.map_cons]

theorem annotateFields_eq (fields : List (String × Exp)) :
    annotateFields globals fields = fields.map fun f => (f.1, annotateExp globals f.2) := by
  induction fields with
  | nil => rfl
  | cons f fields ih => rw [annotateFields, ih, List.map_cons]

theorem annotateArms_eq (arms : List (Pat × Exp)) :
    annotateArms globals arms = arms.map fun a => (a.1, annotateExp globals a.2) := by
  induction arms with
  | nil => rfl
  | cons a arms ih => rw [annotateArms, ih, List.map_cons]

theorem visited_annotate (e : Exp) :
    (annotateExp globals e).visited = e.visited.map (annotateExp globals) := by
  cases e with
  | con _ _ inner | returnBlob inner _ _ =>
    cases inner <;> simp [annotateExp, annotateOpt, Exp.visited]
  | _ =>
    simp [annotateExp, annotateArgs_eq, annotateList_eq, annotateFields_eq, annotateArms_eq,
      Exp.visited]

theorem hidden_annotate (e : Exp) : (annotateExp globals e).hidden = e.hidden := by
  cases e <;> rfl

theorem ownUses_annotate (e : Exp) :
    (annotateExp globals e).ownUses globals = e.ownUses globals := by
  cases e with
  | query qm text body initial prepared => cases prepared <;> rfl
  | _ => rfl

theorem mem_expUses_annotate (e : Exp) :
    k ∈ expUses globals (annotateExp globals e) ↔ k ∈ expUses globals e := by
  induction e using Exp.induct_parts with
  | h e ih _ =>
    rw [mem_expUses, mem_expUses (e := e), visited_annotate, hidden_annotate, ownUses_annotate]
    have hvisited : (∃ c ∈ e.visited.map (annotateExp globals), k ∈ expUses globals c) ↔
        ∃ c ∈ e.visited, k ∈ expUses globals c := by
      simp only [List.mem_map, exists_exists_and_eq_and]
      exact exists_congr fun c => and_congr_right fun hc => ih c hc
    rw [hvisited]

theorem Visible.within (h : Visible e' e) :
    Within (annotateExp globals e') (annotateExp globals e) := by
  induction h with
  | refl => exact .refl
  | visited hc _ ih => exact .visited (by rw [visited_annotate]; exact List.mem_map_of_mem hc) ih

theorem Within.trans (h : Within e1 e2) (h' : Within e2 e3) : Within e1 e3 := by
  induction h' with
  | refl => exact h
  | visited hc _ ih => exact .visited hc (ih h)
  | hidden hc _ ih => exact .hidden hc (ih h)

/-- Marking marks what it goes into, so what it does not go into decides. -/
theorem annotated_iff (e : Exp) :
    Annotated globals (annotateExp globals e) ↔ HiddenAnnotated globals e := by
  constructor
  · intro h e' c hvisible hc qm text body initial pq hw
    have hc' : c ∈ (annotateExp globals e').hidden := by rwa [hidden_annotate]
    exact h qm text body initial pq ((Within.hidden hc' hw).trans hvisible.within)
  · induction e using Exp.induct_parts with
    | h e ih _ =>
      intro h qm text body initial pq hw
      generalize he : annotateExp globals e = e1 at hw
      cases hw with
      | refl =>
        cases e with
        | query qm' text' body' initial' prepared =>
          simp only [annotateExp, Exp.query.injEq] at he
          obtain ⟨-, -, rfl, -, hpq⟩ := he
          cases prepared with
          | none => cases hpq
          | some pq' =>
            obtain rfl := Option.some.inj hpq
            rfl
        | _ => cases he
      | visited hc hw =>
        rw [← he, visited_annotate] at hc
        obtain ⟨c, hmem, rfl⟩ := List.mem_map.mp hc
        refine ih c hmem ?_ qm text body initial pq hw
        exact fun e' x hvisible hx => h e' x (.visited hmem hvisible) hx
      | hidden hc hw =>
        rw [← he, hidden_annotate] at hc
        exact h e _ .refl hc qm text body initial pq hw

-- ---------------------------------------------------------------------------
-- Evaluation
-- ---------------------------------------------------------------------------

/-- A function is called by its id; all other values are data. -/
inductive NestValue (D : Type) where
  | func (n : Nat)
  | data (d : D)

/-- What evaluation rests on besides the file: how an expression's value comes from those of its
parts (foreign calls and the database may have several), what a pattern binds, the values of
global variables and the rows a query answers. -/
structure NestWorld where
  Data : Type
  result : Exp → List (NestValue Data) → NestValue Data → Prop
  binds : Pat → NestValue Data → Option (List (NestValue Data))
  global : Nat → NestValue Data
  rows : NestValue Data → List (NestValue Data) → Prop

/-- An expression that evaluates all its parts and combines their values. -/
def Exp.Strict : Exp → Prop
  | .rel _ | .named _ | .app _ _ | .case _ _ _ | .seq _ _ | .letIn _ _ _ _ | .query _ _ _ _ _ =>
    False
  | _ => True

def Decl.functions : Decl → List FunDecl
  | .func f => [f]
  | .funRec fs => fs
  | _ => []

def functions (decls : List Decl) : List FunDecl := decls.flatMap Decl.functions

section
variable (W : NestWorld) (decls : List Decl)

def firstMatch (d : NestValue W.Data) : List (Pat × Exp) → Option (List (NestValue W.Data) × Exp)
  | [] => none
  | (p, e) :: arms =>
    match W.binds p d with
    | some bs => some (bs, e)
    | none => firstMatch d arms

mutual
/-- Evaluation in an environment whose first value is that of variable 0. -/
inductive NestEval : List (NestValue W.Data) → Exp → NestValue W.Data → Prop
  | rel : ρ[n]? = some v → NestEval ρ (.rel n) v
  | func : f ∈ functions decls → NestEval ρ (.named f.n) (.func f.n)
  | global : (∀ f ∈ functions decls, f.n ≠ n) → NestEval ρ (.named n) (W.global n)
  | strict : e.Strict → NestEvalAll ρ e.visited vs → W.result e vs v → NestEval ρ e v
  | app : NestEval ρ g (.func f.n) → NestEvalAll ρ args vs → f ∈ functions decls →
      vs.length = f.params.length → NestEval vs.reverse f.e v → NestEval ρ (.app g args) v
  | case : NestEval ρ disc d → firstMatch W d arms = some (bs, body) →
      NestEval (bs.reverse ++ ρ) body v → NestEval ρ (.case disc arms info) v
  | seq : NestEval ρ e1 v1 → NestEval ρ e2 v → NestEval ρ (.seq e1 e2) v
  | letIn : NestEval ρ e1 v1 → NestEval (v1 :: ρ) e2 v → NestEval ρ (.letIn x t e1 e2) v
  | query : NestEval ρ initial acc → NestEval ρ text t → W.rows t rows →
      NestEvalRows ρ body rows acc v → NestEval ρ (.query qm text body initial prepared) v
inductive NestEvalAll : List (NestValue W.Data) → List Exp → List (NestValue W.Data) → Prop
  | nil : NestEvalAll ρ [] []
  | cons : NestEval ρ e v → NestEvalAll ρ es vs → NestEvalAll ρ (e :: es) (v :: vs)
/-- The body of a query, run for each row on what the run before left. -/
inductive NestEvalRows : List (NestValue W.Data) → Exp → List (NestValue W.Data) →
    NestValue W.Data → NestValue W.Data → Prop
  | nil : NestEvalRows ρ body [] acc acc
  | cons : NestEval (acc :: row :: ρ) body acc' → NestEvalRows ρ body rows acc' v →
      NestEvalRows ρ body (row :: rows) acc v
end

/-- An evaluation that comes to start a prepared query with the id `k`, whether it then ends
or not. -/
inductive Starts : List (NestValue W.Data) → Exp → Nat → Prop
  | query : NestEval W decls ρ initial acc → NestEval W decls ρ text t →
      Starts ρ (.query qm text body initial (some pq)) pq.id
  | queryInitial : Starts ρ initial k → Starts ρ (.query qm text body initial prepared) k
  | queryText : Starts ρ text k → Starts ρ (.query qm text body initial prepared) k
  | queryBody : NestEval W decls ρ initial acc0 → NestEval W decls ρ text t →
      W.rows t (rows ++ row :: rows') → NestEvalRows W decls ρ body rows acc0 acc →
      Starts (acc :: row :: ρ) body k → Starts ρ (.query qm text body initial prepared) k
  | strict : e.Strict → c ∈ e.visited → Starts ρ c k → Starts ρ e k
  | appHead : Starts ρ g k → Starts ρ (.app g args) k
  | appArg : a ∈ args → Starts ρ a k → Starts ρ (.app g args) k
  | call : NestEval W decls ρ g (.func f.n) → NestEvalAll W decls ρ args vs →
      f ∈ functions decls → vs.length = f.params.length → Starts vs.reverse f.e k →
      Starts ρ (.app g args) k
  | disc : Starts ρ disc k → Starts ρ (.case disc arms info) k
  | arm : NestEval W decls ρ disc d → firstMatch W d arms = some (bs, body) →
      Starts (bs.reverse ++ ρ) body k → Starts ρ (.case disc arms info) k
  | seq1 : Starts ρ e1 k → Starts ρ (.seq e1 e2) k
  | seq2 : NestEval W decls ρ e1 v → Starts ρ e2 k → Starts ρ (.seq e1 e2) k
  | letBound : Starts ρ e1 k → Starts ρ (.letIn x t e1 e2) k
  | letBody : NestEval W decls ρ e1 v → Starts (v :: ρ) e2 k → Starts ρ (.letIn x t e1 e2) k

end

theorem firstMatch_mem {W : NestWorld} {d : NestValue W.Data} {bs : List (NestValue W.Data)}
    (h : firstMatch W d arms = some (bs, body)) : body ∈ arms.map Prod.snd := by
  induction arms with
  | nil => cases h
  | cons a arms ih =>
    obtain ⟨p, e⟩ := a
    simp only [firstMatch] at h
    cases hb : W.binds p d with
    | some bs' =>
      rw [hb] at h
      obtain ⟨-, rfl⟩ := Prod.mk.inj (Option.some.inj h)
      exact List.mem_cons_self
    | none =>
      rw [hb] at h
      exact List.mem_cons_of_mem _ (ih h)

/-- Every application in an expression is of a function of the file, by its name. -/
def FirstOrder (decls : List Decl) (e : Exp) : Prop :=
  ∀ g args, Within (.app g args) e → ∃ f ∈ functions decls, g = .named f.n

/-- What is recorded for a function covers its body. -/
def Summarised (decls : List Decl) (globals : Globals) : Prop :=
  ∀ f ∈ functions decls, ∀ k ∈ expUses globals f.e, k ∈ globals f.n

theorem uses_visited (hc : c ∈ Exp.visited e) (hfirst : FirstOrder decls e)
    (h : FirstOrder decls c → k ∈ expUses globals c) : k ∈ expUses globals e :=
  mem_expUses.mpr (Or.inr (Or.inl ⟨c, hc, h fun g args hw => hfirst g args (.visited hc hw)⟩))

theorem uses_hidden (hc : c ∈ Exp.hidden e) (hfirst : FirstOrder decls e)
    (h : FirstOrder decls c → k ∈ expUses globals c) : k ∈ expUses globals e :=
  mem_expUses.mpr (Or.inr (Or.inr ⟨c, hc, h fun g args hw => hfirst g args (.hidden hc hw)⟩))

theorem eval_named {W : NestWorld} {ρ : List (NestValue W.Data)} {f f' : FunDecl}
    (h : NestEval W decls ρ (.named f.n) (.func f'.n)) (hf : f ∈ functions decls) :
    f'.n = f.n := by
  generalize he : Exp.named f.n = e at h
  generalize hv : NestValue.func f'.n = v at h
  cases h with
  | func _ => exact (NestValue.func.inj hv).trans (Exp.named.inj he).symm
  | global hno =>
    cases he
    exact absurd rfl (hno f hf)
  | strict hs _ _ =>
    subst he
    exact hs.elim
  | _ => cases he

/-- Where all calls are by name and every name is covered, evaluation starts no query that the
summary leaves out. -/
theorem starts_uses {W : NestWorld} {ρ : List (NestValue W.Data)}
    (hfun : ∀ f ∈ functions decls, FirstOrder decls f.e) (hsum : Summarised decls globals)
    (h : Starts W decls ρ e k) (hfirst : FirstOrder decls e) : k ∈ expUses globals e := by
  induction h with
  | query _ _ => exact mem_expUses.mpr (Or.inl (List.mem_singleton_self _))
  | queryInitial _ ih =>
    exact uses_hidden (List.mem_cons_of_mem _ List.mem_cons_self) hfirst ih
  | queryText _ ih => exact uses_hidden List.mem_cons_self hfirst ih
  | strict _ hc _ ih => exact uses_visited hc hfirst ih
  | appArg ha _ ih => exact uses_visited (List.mem_cons_of_mem _ ha) hfirst ih
  | call hg _ hf _ _ ih =>
    obtain ⟨f', hf', rfl⟩ := hfirst _ _ .refl
    have hn := eval_named hg hf'
    have hk := hsum _ hf _ (ih (hfun _ hf))
    rw [hn] at hk
    exact mem_expUses.mpr (Or.inr (Or.inl ⟨.named f'.n, List.mem_cons_self, hk⟩))
  | arm _ hm _ ih => exact uses_visited (List.mem_cons_of_mem _ (firstMatch_mem hm)) hfirst ih
  | appHead _ ih | disc _ ih | seq1 _ ih | letBound _ ih | queryBody _ _ _ _ _ ih =>
    exact uses_visited List.mem_cons_self hfirst ih
  | seq2 _ _ ih | letBody _ _ ih =>
    exact uses_visited (List.mem_cons_of_mem _ List.mem_cons_self) hfirst ih

-- ---------------------------------------------------------------------------
-- Files
-- ---------------------------------------------------------------------------

def Decl.names : Decl → List Nat
  | .val _ n _ _ => [n]
  | .func f => [f.n]
  | .funRec fs => fs.map FunDecl.n
  | .task .. | .other _ => []

def Decl.bodies : Decl → List Exp
  | .val _ _ _ e | .task _ _ _ e => [e]
  | .func f => [f.e]
  | .funRec fs => fs.map FunDecl.e
  | .other _ => []

/-- What marking promises of a file. -/
structure NestChecked (decls : List Decl) : Prop where
  /-- No evaluation of a body that is not marked starts the query's own statement. -/
  sound : ∀ d ∈ annotate decls, ∀ e ∈ d.bodies, ∀ qm text body initial pq,
    Within (.query qm text body initial (some pq)) e → pq.nested = false →
      ∀ (W : NestWorld) (ρ : List (NestValue W.Data)), ¬ Starts W (annotate decls) ρ body pq.id
  /-- Every prepared query is marked by whether its body may use its id. -/
  annotated : ∀ d ∈ annotate decls, ∀ e ∈ d.bodies, Annotated (collectGlobals decls) e

/-- Queries inside the text or the initial value of another come with the right mark. -/
def HiddenRight (decls : List Decl) : Prop :=
  ∀ d ∈ decls, ∀ e ∈ d.bodies, HiddenAnnotated (collectGlobals decls) e

/-- Every name is declared once, no function mentions one that is declared after it, and every
application is of a function of the file, by its name. -/
structure NestTracked (decls : List Decl) : Prop where
  firstOrder : ∀ d ∈ decls, ∀ e ∈ d.bodies, FirstOrder decls e
  distinct : (decls.flatMap Decl.names).Nodup
  ordered : ∀ pre d post, decls = pre ++ d :: post → ∀ f ∈ d.functions, ∀ n,
    Within (.named n) f.e → n ∉ post.flatMap Decl.names

-- ---------------------------------------------------------------------------
-- Summaries of a file
-- ---------------------------------------------------------------------------

theorem mem_expUses_within :
    k ∈ expUses globals e ↔ ∃ x, Within x e ∧ k ∈ x.ownUses globals := by
  constructor
  · induction e using Exp.induct_parts with
    | h e ihv ihh =>
      intro h
      obtain h | ⟨c, hc, h⟩ | ⟨c, hc, h⟩ := mem_expUses.mp h
      · exact ⟨e, .refl, h⟩
      · obtain ⟨x, hx, hk⟩ := ihv c hc h
        exact ⟨x, .visited hc hx, hk⟩
      · obtain ⟨x, hx, hk⟩ := ihh c hc h
        exact ⟨x, .hidden hc hx, hk⟩
  · rintro ⟨x, hx, hk⟩
    induction hx with
    | refl => exact mem_expUses.mpr (Or.inl hk)
    | visited hc _ ih => exact mem_expUses.mpr (Or.inr (Or.inl ⟨_, hc, ih hk⟩))
    | hidden hc _ ih => exact mem_expUses.mpr (Or.inr (Or.inr ⟨_, hc, ih hk⟩))

theorem insert_same (fs : List FunDecl) (uses : List Nat) (globals : Globals) (n : Nat) :
    fs.foldl (fun globals f => globals.insert f.n uses) globals n =
      if n ∈ fs.map FunDecl.n then uses else globals n := by
  induction fs generalizing globals with
  | nil => rfl
  | cons f fs ih =>
    rw [List.foldl_cons, ih]
    by_cases hn : n ∈ fs.map FunDecl.n
    · simp [hn]
    · by_cases hf : n = f.n
      · simp [hf, Globals.insert]
      · simp [hn, hf, Globals.insert]

/-- A declaration leaves the names of others alone. -/
theorem addDecl_other {d : Decl} {n : Nat} (h : n ∉ d.names) :
    addDecl globals d n = globals n := by
  cases d with
  | val x m t e => exact if_neg fun hn => h (List.mem_singleton.mpr hn)
  | func f => exact if_neg fun hn => h (List.mem_singleton.mpr hn)
  | funRec fs => exact (insert_same fs _ globals n).trans (if_neg h)
  | task | other => rfl

/-- All functions of a declaration share one record, which covers the bodies as far as the names
before it were recorded. -/
theorem addDecl_functions (globals : Globals) (hf : f ∈ d.functions) (hn : n ∈ d.names) :
    addDecl globals d n = addDecl globals d f.n ∧
      ∀ k ∈ expUses globals f.e, k ∈ addDecl globals d f.n := by
  cases d with
  | func f' =>
    obtain rfl := List.mem_singleton.mp hf
    obtain rfl := List.mem_singleton.mp hn
    exact ⟨rfl, fun k hk => by simpa [addDecl, Globals.insert] using hk⟩
  | funRec fs =>
    have hall : addDecl globals (.funRec fs) f.n = fs.flatMap fun f => expUses globals f.e :=
      (insert_same fs _ globals f.n).trans (if_pos (List.mem_map_of_mem hf))
    rw [hall]
    refine ⟨(insert_same fs _ globals n).trans (if_pos hn), fun k hk => ?_⟩
    exact List.mem_flatMap.mpr ⟨f, hf, hk⟩
  | val | task | other => exact (List.not_mem_nil hf).elim

theorem function_name (hf : f ∈ Decl.functions d) : f.n ∈ d.names := by
  cases d with
  | func f' =>
    obtain rfl := List.mem_singleton.mp hf
    exact List.mem_singleton_self _
  | funRec fs => exact List.mem_map_of_mem hf
  | val | task | other => exact (List.not_mem_nil hf).elim

theorem foldl_addDecl_other {decls : List Decl} {globals : Globals} {n : Nat}
    (h : n ∉ decls.flatMap Decl.names) :
    decls.foldl addDecl globals n = globals n := by
  induction decls generalizing globals with
  | nil => rfl
  | cons d decls ih =>
    rw [List.flatMap_cons, List.mem_append, not_or] at h
    rw [List.foldl_cons, ih h.2, addDecl_other h.1]

/-- The summaries of a file in which every name is recorded before it is used cover it. -/
theorem NestTracked.summarised (h : NestTracked decls) :
    Summarised decls (collectGlobals decls) := by
  intro f hf k hk
  obtain ⟨d, hd, hfd⟩ := List.mem_flatMap.mp hf
  obtain ⟨pre, post, rfl⟩ := List.append_of_mem hd
  have hpost (n : Nat) (hn : n ∉ post.flatMap Decl.names) :
      collectGlobals (pre ++ d :: post) n = addDecl (pre.foldl addDecl fun _ => []) d n := by
    rw [collectGlobals, List.foldl_append, List.foldl_cons, foldl_addDecl_other hn]
  have hown : f.n ∉ post.flatMap Decl.names := by
    have hdis := h.distinct
    rw [List.flatMap_append, List.flatMap_cons] at hdis
    have hright := (List.nodup_append.mp (List.nodup_append.mp hdis).2.1).2.2
    exact fun hmem => hright _ (function_name hfd) _ hmem rfl
  rw [hpost f.n hown]
  obtain ⟨x, hx, hkx⟩ := mem_expUses_within.mp hk
  have hcover := (addDecl_functions (pre.foldl addDecl fun _ => []) hfd (function_name hfd)).2 k
  cases x with
  | named n =>
    have hn := hpost n (h.ordered pre d post rfl f hfd n hx)
    change k ∈ collectGlobals (pre ++ d :: post) n at hkx
    rw [hn] at hkx
    by_cases hmem : n ∈ d.names
    · rwa [(addDecl_functions _ hfd hmem).1] at hkx
    · rw [addDecl_other hmem] at hkx
      exact hcover (mem_expUses_within.mpr ⟨_, hx, hkx⟩)
  | query => exact hcover (mem_expUses_within.mpr ⟨_, hx, hkx⟩)
  | _ => exact (List.not_mem_nil hkx).elim

-- ---------------------------------------------------------------------------
-- The marked file
-- ---------------------------------------------------------------------------

theorem annotateDecl_functions (d : Decl) :
    (annotateDecl globals d).functions = d.functions.map (FunDecl.annotate globals) := by
  cases d <;> rfl

theorem annotateDecl_bodies (d : Decl) :
    (annotateDecl globals d).bodies = d.bodies.map (annotateExp globals) := by
  cases d with
  | funRec fs => simp [annotateDecl, Decl.bodies, FunDecl.annotate]
  | _ => rfl

theorem function_body (hf : f ∈ Decl.functions d) : f.e ∈ d.bodies := by
  cases d with
  | func f' =>
    obtain rfl := List.mem_singleton.mp hf
    exact List.mem_singleton_self _
  | funRec fs => exact List.mem_map_of_mem hf
  | val | task | other => exact (List.not_mem_nil hf).elim

theorem mem_functions_annotate :
    f ∈ functions (annotate decls) ↔
      ∃ f0 ∈ functions decls, f = f0.annotate (collectGlobals decls) := by
  simp only [functions, annotate, List.mem_flatMap, List.mem_map, exists_exists_and_eq_and,
    annotateDecl_functions]
  constructor
  · rintro ⟨d, hd, f0, hf0, rfl⟩
    exact ⟨f0, ⟨d, hd, hf0⟩, rfl⟩
  · rintro ⟨f0, ⟨d, hd, hf0⟩, rfl⟩
    exact ⟨d, hd, f0, hf0, rfl⟩

theorem within_annotate (e : Exp) (h : Within x (annotateExp globals e)) :
    (∃ x0, Within x0 e ∧ x = annotateExp globals x0) ∨ Within x e := by
  induction e using Exp.induct_parts with
  | h e ih _ =>
    generalize he : annotateExp globals e = e1 at h
    cases h with
    | refl => exact Or.inl ⟨e, .refl, he.symm⟩
    | visited hc hw =>
      rw [← he, visited_annotate] at hc
      obtain ⟨c, hmem, rfl⟩ := List.mem_map.mp hc
      obtain ⟨x0, hx0, rfl⟩ | hx := ih c hmem hw
      · exact Or.inl ⟨x0, .visited hmem hx0, rfl⟩
      · exact Or.inr (.visited hmem hx)
    | hidden hc hw =>
      rw [← he, hidden_annotate] at hc
      exact Or.inr (.hidden hc hw)

theorem FirstOrder.annotate (h : FirstOrder decls e) :
    FirstOrder (annotate decls) (annotateExp (collectGlobals decls) e) := by
  intro g args hw
  have hnamed (hg : ∃ f ∈ functions decls, g = .named f.n) :
      ∃ f ∈ functions (Cjr.annotate decls), g = .named f.n := by
    obtain ⟨f, hf, rfl⟩ := hg
    exact ⟨f.annotate (collectGlobals decls), mem_functions_annotate.mpr ⟨f, hf, rfl⟩, rfl⟩
  obtain ⟨x0, hx0, heq⟩ | hx := within_annotate e hw
  · cases x0 with
    | app g0 args0 =>
      obtain ⟨hg, -⟩ := Exp.app.inj heq
      obtain ⟨f, hf, rfl⟩ := h g0 args0 hx0
      exact hnamed ⟨f, hf, hg⟩
    | _ => cases heq
  · exact hnamed (h g args hx)

theorem HiddenRight.annotated (h : HiddenRight decls) (hd : d ∈ annotate decls)
    (he : e ∈ d.bodies) : Annotated (collectGlobals decls) e := by
  obtain ⟨d0, hd0, rfl⟩ := List.mem_map.mp hd
  rw [annotateDecl_bodies] at he
  obtain ⟨e0, he0, rfl⟩ := List.mem_map.mp he
  exact (annotated_iff e0).mpr (h d0 hd0 e0 he0)

def unit : Exp := .record 0 []

/-- A prepared query whose text is `SELECT` and the id, with no columns. -/
def preparedQuery (id : Nat) (body initial : Exp) : Exp :=
  .query { exps := [], tables := [], rnum := 0, state := .record 0 }
    (.prim (.string .normal "SELECT")) body initial (some { id, query := "SELECT", nested := true })

/-- The inner query runs nothing in its body and keeps the mark of a nested one. -/
def queryInInitial : List Decl :=
  [.val "rows" 0 (.record 0) (preparedQuery 1 unit (preparedQuery 2 unit unit))]

end UrWeb.Cjr
