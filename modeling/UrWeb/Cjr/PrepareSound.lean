import UrWeb.Cjr.Prepare

/-!
# Templates and their arguments

Where every part of a query is text or a call with one argument that the
printer knows, the printer's arguments are those of the placeholders, in
order; for any other query that becomes a template they are too few. The
statements of a file share an id exactly when they share a template.
-/

namespace UrWeb.Cjr

-- ---------------------------------------------------------------------------
-- What a template stands for
-- ---------------------------------------------------------------------------

/-- The values of the arguments in some state of the program, the SQL literals of
values, and the text that any other expression evaluates to. -/
structure World where
  value : Exp → Option Value
  literal : SqlType → Value → Option String
  text : Exp → Option String

variable (W : World)

/-- The text of a query. -/
def queryText : Exp → Option String
  | .prim (.string _ s) => some s
  | .ffiApp m f [(e1, t1), (e2, t2)] =>
    if m = "Basis" ∧ f = "strcat" then do return (← queryText e1) ++ (← queryText e2)
    else W.text (.ffiApp m f [(e1, t1), (e2, t2)])
  | .ffiApp m f [(e, t)] =>
    match sqlifyCall (.ffiApp m f [(e, t)]) with
    | some ty => do W.literal ty (← W.value e)
    | none => W.text (.ffiApp m f [(e, t)])
  | e => W.text e

/-- The template with the literal of each argument in the place of its placeholder. -/
def fill (args : List (Exp × SqlType)) : List Part → Option String
  | [] => some ""
  | .text s :: ps => do return s ++ (← fill args ps)
  | .blank n _ :: ps => do
    let (e, t) ← args[n - 1]?
    return (← W.literal t (← W.value e)) ++ (← fill args ps)

/-- The parameters of a template: their numbers and types. -/
def params : List Part → List (Nat × SqlType)
  | [] => []
  | .text _ :: ps => params ps
  | .blank n t :: ps => (n, t) :: params ps

/-- The printer binds the parameters of the template, and the query so sent is the query meant. -/
structure Agrees (e : Exp) (n : Nat) (parts : List Part) : Prop where
  count : (getPargs e).length = n
  numbers : (params parts).map (·.1) = List.range' 1 n
  types : (params parts).map (·.2) = (getPargs e).map (·.2)
  text : ∀ W, fill W (getPargs e) parts = queryText W e

/-- The statements prepared for a file share an id exactly when they share a template. -/
def SharesIds (db : Backend) : Prop :=
  ∀ (es : List Exp) (i j id id' : Nat) (s s' : String),
    (prepareAll db es .new).1[i]? = some (some (id, s)) →
    (prepareAll db es .new).1[j]? = some (some (id', s')) → (id = id' ↔ s = s')

/-- Text, and calls with one argument that the printer knows, put together. -/
def Plain : Exp → Bool
  | .prim (.string _ _) => true
  | .ffiApp m f [(e1, _), (e2, _)] => m = "Basis" && f = "strcat" && Plain e1 && Plain e2
  | .ffiApp m f [_] => m = "Basis" && f ≠ "sqlifyChar" && (sqlifyType f).isSome
  | _ => false

-- ---------------------------------------------------------------------------
-- What the pass accepts
-- ---------------------------------------------------------------------------

/-- The query adds these parts to a template with `k` parameters. -/
inductive Templated : Exp → Nat → List Part → Prop
  | text : Templated (.prim (.string m s)) k [.text s]
  | strcat : Templated e k p → Templated e' (k + (params p).length) q →
    Templated (.ffiApp "Basis" "strcat" [(e, t), (e', t')]) k (p ++ q)
  | call : sqlifyType f = some t → Templated (.ffiApp "Basis" f a) k [.blank (k + 1) t]
  | case : Templated (.case d r i) k [.blank (k + 1) t]

@[simp] theorem params_append (ps qs : List Part) : params (ps ++ qs) = params ps ++ params qs := by
  induction ps with
  | nil => rfl
  | cons p ps ih => cases p <;> simp [params, ih]

theorem sqlifyCall_eq (h : sqlifyCall (.ffiApp m f args) = some t) :
    m = "Basis" ∧ sqlifyType f = some t := by
  simpa [sqlifyCall] using h

theorem prepString_templated (h : prepString e st = some r) :
    ∃ ps, Templated e st.1 ps ∧ r = (st.1 + (params ps).length, st.2 ++ ps) := by
  induction e, st using prepString.induct generalizing r with
  | case1 mode s st =>
    cases h
    exact ⟨_, .text, rfl⟩
  | case2 m f e1 t1 e2 t2 st hc ih1 ih2 =>
    obtain ⟨rfl, rfl⟩ := hc
    simp only [prepString, and_self, if_true, bind, Option.bind_eq_some_iff] at h
    obtain ⟨st₁, h₁, h₂⟩ := h
    obtain ⟨ps, hps, rfl⟩ := ih1 h₁
    obtain ⟨qs, hqs, rfl⟩ := ih2 _ h₂
    exact ⟨ps ++ qs, .strcat hps hqs, by simp [Nat.add_assoc]⟩
  | case3 m f e1 t1 e2 t2 st hc =>
    simp only [prepString, hc, if_false, Option.map_eq_some_iff] at h
    obtain ⟨t, ht, rfl⟩ := h
    obtain ⟨rfl, ht⟩ := sqlifyCall_eq ht
    exact ⟨_, .call ht, rfl⟩
  | case4 m f args st hne hc =>
    rw [prepString.eq_3 _ _ _ _ hne, if_pos hc] at h
    cases h
  | case5 m f args st hne hc =>
    rw [prepString.eq_3 _ _ _ _ hne, if_neg hc, Option.map_eq_some_iff] at h
    obtain ⟨t, ht, rfl⟩ := h
    obtain ⟨rfl, ht⟩ := sqlifyCall_eq ht
    exact ⟨_, .call ht, rfl⟩
  | case6 d p0 e0 p1 e1 info st t ht =>
    rw [prepString, ht] at h
    cases h
    exact ⟨_, .case, rfl⟩
  | case7 d p0 e0 p1 e1 info st hn hb =>
    rw [prepString, hn] at h
    simp only [hb, if_true] at h
    cases h
    exact ⟨_, .case, rfl⟩
  | case8 d p0 e0 p1 e1 info st hn hb =>
    rw [prepString, hn] at h
    simp [hb] at h
  | case9 e st h1 h2 h3 h4 =>
    rw [prepString.eq_5 _ _ h1 h2 h3 h4] at h
    cases h

-- ---------------------------------------------------------------------------
-- The arguments of a template
-- ---------------------------------------------------------------------------

theorem pargType_eq (f : String) : pargType f = if f = "sqlifyChar" then none else sqlifyType f := by
  by_cases hf : f = "sqlifyChar"
  · subst hf
    rfl
  · rw [if_neg hf]
    unfold pargType sqlifyType
    split <;> simp_all

/-- The printer finds no more arguments than the template has parameters, and as many
exactly for a plain query. -/
theorem Templated.count (h : Templated e k ps) :
    (getPargs e).length ≤ (params ps).length ∧
      (Plain e ↔ (getPargs e).length = (params ps).length) := by
  induction h with
  | text => simp [getPargs, params, Plain]
  | strcat _ _ ih ih' =>
    simp only [getPargs, and_self, if_true, List.length_append, params_append, Plain, decide_true,
      Bool.true_and, Bool.and_eq_true, ih.2, ih'.2]
    omega
  | @call f t a k hf =>
    have hs : f ≠ "strcat" := by
      rintro rfl
      cases hf
    match a with
    | [] => simp [getPargs, params, Plain]
    | [x] =>
      by_cases hc : f = "sqlifyChar"
      · simp [getPargs, params, Plain, pargType_eq, hc]
      · simp [getPargs, params, Plain, pargType_eq, hc, hf]
    | [x, y] => simp [getPargs, params, Plain, hs]
    | x :: y :: z :: a => simp [getPargs, params, Plain]
  | case => simp [getPargs, params, Plain]

theorem Templated.numbers (h : Templated e k ps) :
    (params ps).map (·.1) = List.range' (k + 1) (params ps).length := by
  induction h with
  | text => rfl
  | @strcat e k p e' q t t' _ _ ih ih' =>
    have hr : List.range' (k + 1) ((params p).length + (params q).length) =
        List.range' (k + 1) (params p).length ++
          List.range' (k + 1 + (params p).length) (params q).length :=
      List.range'_append_1.symm
    rw [params_append, List.map_append, ih, ih', List.length_append, hr, Nat.add_right_comm]
  | call | case => rfl

theorem Templated.types (h : Templated e k ps) (hp : Plain e) :
    (params ps).map (·.2) = (getPargs e).map (·.2) := by
  induction h with
  | text => rfl
  | strcat _ _ ih ih' =>
    simp only [Plain, decide_true, Bool.true_and, Bool.and_eq_true] at hp
    simp [getPargs, ih hp.1, ih' hp.2]
  | @call f t a k hf =>
    match a with
    | [] | x :: y :: z :: a => simp [Plain] at hp
    | [x] =>
      have hc : f ≠ "sqlifyChar" := by
        rintro rfl
        simp [Plain] at hp
      simp [getPargs, params, pargType_eq, hc, hf]
    | [x, y] =>
      have hs : f = "strcat" := by
        simp only [Plain, Bool.and_eq_true, decide_eq_true_eq] at hp
        exact hp.1.1.2
      subst hs
      cases hf
  | case => simp [Plain] at hp

theorem fill_append (args : List (Exp × SqlType)) (ps qs : List Part) :
    fill W args (ps ++ qs) = do return (← fill W args ps) ++ (← fill W args qs) := by
  induction ps with
  | nil => simp [fill]
  | cons p ps ih =>
    cases p with
    | text s =>
      simp only [List.cons_append, fill, ih, bind_assoc, pure_bind, String.append_assoc]
    | blank i t =>
      simp only [List.cons_append, fill, ih, bind_assoc, pure_bind, String.append_assoc]

theorem Templated.fill_eq (h : Templated e k ps) (hp : Plain e) (pre post : List (Exp × SqlType))
    (hk : pre.length = k) : fill W (pre ++ (getPargs e ++ post)) ps = queryText W e := by
  induction h generalizing pre post with
  | text => simp [fill, queryText]
  | @strcat e k p e' q t t' hq _ ih ih' =>
    simp only [Plain, decide_true, Bool.true_and, Bool.and_eq_true] at hp
    have hlen := (hq.count).2.mp hp.1
    have h₁ := ih hp.1 pre (getPargs e' ++ post) hk
    have h₂ := ih' hp.2 (pre ++ getPargs e) post (by simp [hk, hlen])
    simp only [List.append_assoc] at h₁ h₂
    simp only [fill_append, getPargs, and_self, if_true, List.append_assoc, h₁, h₂, queryText]
  | @call f t a k hf =>
    match a with
    | [] | x :: y :: z :: a => simp [Plain] at hp
    | [x] =>
      have hc : f ≠ "sqlifyChar" := by
        rintro rfl
        simp [Plain] at hp
      simp [fill, getPargs, pargType_eq, hc, hf, queryText, sqlifyCall, ← hk]
    | [x, y] =>
      have hs : f = "strcat" := by
        simp only [Plain, Bool.and_eq_true, decide_eq_true_eq] at hp
        exact hp.1.1.2
      subst hs
      cases hf
  | case => simp [Plain] at hp

-- ---------------------------------------------------------------------------
-- Statement ids
-- ---------------------------------------------------------------------------

namespace PrepareState

variable {st : PrepareState}

/-- No two templates have one k. -/
theorem map_injective (h : st.map s = some k) (h' : st.map s' = some k) : s = s' := by
  have hnd : (st.list.map (·.2)).Nodup := st.ids ▸ List.nodup_range
  have hinj := List.inj_on_of_nodup_map hnd ((st.mem_iff _ _).mp h) ((st.mem_iff _ _).mp h') rfl
  exact congrArg Prod.fst hinj

theorem nameOf_map (st : PrepareState) (s : String) :
    (st.nameOf s).2.map s = some (st.nameOf s).1 := by
  unfold nameOf
  split
  · assumption
  · simp

theorem nameOf_keeps (h : st.map s' = some k) (s : String) : (st.nameOf s).2.map s' = some k := by
  unfold nameOf
  split
  · exact h
  · rename_i hs
    have hne : s' ≠ s := by
      rintro rfl
      rw [hs] at h
      cases h
    simp [hne, h]

end PrepareState

theorem tryPrepare_keeps {st : PrepareState} (h : st.map s = some k) (db : Backend) (e : Exp) :
    (tryPrepare db e st).2.map s = some k := by
  unfold tryPrepare
  split
  · exact PrepareState.nameOf_keeps h _
  · exact h

theorem tryPrepare_map {st : PrepareState} (h : (tryPrepare db e st).1 = some (k, s)) :
    (tryPrepare db e st).2.map s = some k := by
  unfold tryPrepare at h ⊢
  split at h
  · rename_i n parts hp
    cases h
    exact PrepareState.nameOf_map _ _
  · cases h

theorem prepareAll_keeps {st : PrepareState} (h : st.map s = some k) (db : Backend) (es : List Exp) :
    (prepareAll db es st).2.map s = some k := by
  induction es generalizing st with
  | nil => exact h
  | cons e es ih => exact ih (tryPrepare_keeps h db e)

/-- After a run, the id that a statement was given is still the id of its template. -/
theorem prepareAll_map {st : PrepareState} (db : Backend) (es : List Exp)
    (h : some (k, s) ∈ (prepareAll db es st).1) : (prepareAll db es st).2.map s = some k := by
  induction es generalizing st with
  | nil => cases h
  | cons e es ih =>
    rcases List.mem_cons.mp h with h | h
    · exact prepareAll_keeps (tryPrepare_map h.symm) db es
    · exact ih h

theorem sharesIds (db : Backend) : SharesIds db := by
  intro es i j id id' s s' hi hj
  have hs := prepareAll_map db es (List.mem_of_getElem? hi)
  have hs' := prepareAll_map db es (List.mem_of_getElem? hj)
  constructor
  · rintro rfl
    exact PrepareState.map_injective hs hs'
  · rintro rfl
    exact Option.some.inj (hs.symm.trans hs')

-- ---------------------------------------------------------------------------
-- When template and arguments agree
-- ---------------------------------------------------------------------------

/-- A query that becomes a template agrees with the arguments printed for it exactly when
it is put together from text and calls with one argument that the printer knows. -/
theorem prepared_agrees_iff (db : Backend) (h : prepString e (0, []) = some (n, parts)) :
    (Agrees e n parts ∧ SharesIds db) ↔ Plain e := by
  obtain ⟨ps, ht, hr⟩ := prepString_templated h
  obtain ⟨rfl, rfl⟩ : n = (params parts).length ∧ ps = parts := by
    simp only [List.nil_append, Nat.zero_add, Prod.mk.injEq] at hr
    exact ⟨by rw [hr.1, hr.2], hr.2.symm⟩
  constructor
  · rintro ⟨ha, -⟩
    exact ht.count.2.mpr ha.count
  · intro hp
    refine ⟨⟨ht.count.2.mp hp, ht.numbers, ht.types hp, fun W => ?_⟩, sharesIds db⟩
    simpa using ht.fill_eq W hp [] [] rfl

/-- `SELECT * FROM t WHERE a = ` and an integer. -/
theorem prepared_agrees_int :
    Agrees
      (.ffiApp "Basis" "strcat"
        [(.prim (.string .normal "SELECT * FROM t WHERE a = "), .ffi "Basis" "string"),
          (.ffiApp "Basis" "sqlifyInt" [(.rel 0, .ffi "Basis" "int")], .ffi "Basis" "string")])
      1 [.text "SELECT * FROM t WHERE a = ", .blank 1 .int] ∧ SharesIds .postgres :=
  (prepared_agrees_iff .postgres rfl).mpr rfl

/-- A nullable integer: one placeholder, no argument. -/
theorem prepared_lacks_nullable :
    ¬ ∀ db e n parts, prepString e (0, []) = some (n, parts) → Agrees e n parts ∧ SharesIds db := by
  intro h
  have ha := (h .postgres (.case (.rel 0)
    [(.none (.ffi "Basis" "int"), .prim (.string .normal "NULL")),
      (.some (.ffi "Basis" "int") (.var "x" (.ffi "Basis" "int")),
        .ffiApp "Basis" "sqlifyInt" [(.rel 0, .ffi "Basis" "int")])]
    ⟨.option (.ffi "Basis" "int"), .ffi "Basis" "string"⟩) 1 _ rfl).1.count
  exact absurd ha (by decide)

end UrWeb.Cjr
