import UrWeb.Cjr.Representation
import Mathlib.Data.List.Forall2

/-!
# Taking values apart

The printed test of a pattern against the C value of a source value, and the
printed declarations of its variables. Both read the argument of a tagged
constructor, but the test looks for it in the wrong struct.
-/

namespace UrWeb.Cjr

-- ---------------------------------------------------------------------------
-- What is tested below a tag
-- ---------------------------------------------------------------------------

mutual

/-- The pattern's condition looks at the value. -/
def tests : Pat → Bool
  | .var _ _ => false
  | .record xps => testsFields xps
  | _ => true

def testsFields : List (String × Pat × Typ) → Bool
  | [] => false
  | (_, p, _) :: xps => tests p || testsFields xps

end

mutual

/-- Some constructor with a tag has an argument whose pattern looks at the value. -/
def testsBelowTag (env : CjrEnv) : Pat → Bool
  | .con dk pc (some p) =>
    (dk = .default && (exactListConstructor env pc).isNone && tests p) || testsBelowTag env p
  | .record xps => testsBelowTagFields env xps
  | .some _ p => testsBelowTag env p
  | _ => false

def testsBelowTagFields (env : CjrEnv) : List (String × Pat × Typ) → Bool
  | [] => false
  | (_, p, _) :: xps => testsBelowTag env p || testsBelowTagFields env xps

end

/-- The members of the struct of a datatype with tags. -/
def taggedMembers : List String := ["tag", "data"]

/-- No struct or union is declared with one member twice. -/
structure CjrEnv.Declares (env : CjrEnv) (kinds : Nat → Option DatatypeKind) : Prop where
  structs : ∀ {i xts}, env.structs i = some xts → (structMembers xts).Nodup
  unions : ∀ {n name constrs}, env.datatypes n = some (name, constrs) →
    kinds n = some .default → (unionMembers constrs).Nodup

variable {env : CjrEnv} {kinds : Nat → Option DatatypeKind}

-- ---------------------------------------------------------------------------
-- Evaluating conditions
-- ---------------------------------------------------------------------------

theorem eval_and {layout : Layout} {σ : String → Option CVal} {a b : CExp} {x y : Bool}
    (ha : a.eval layout σ = some (.ofBool x)) (hb : x → b.eval layout σ = some (.ofBool y)) :
    (CExp.and a b).eval layout σ = some (.ofBool (x && y)) := by
  cases x with
  | false => simp [CExp.eval, ha]
  | true => simp [CExp.eval, ha, hb rfl]

theorem eval_isNull {layout : Layout} {σ : String → Option CVal} {d : CExp} {c : CVal} {b : Bool}
    (hd : d.eval layout σ = some c) (hc : c.equal .null = some b) :
    (CExp.eq d .null).eval layout σ = some (.ofBool b) ∧
      (CExp.ne d .null).eval layout σ = some (.ofBool !b) := by
  simp [CExp.eval, hd, hc]

mutual

theorem untested_eval {layout : Layout} {σ : String → Option CVal} (d : CExp) (p : Pat)
    (h : tests p = false) : (pPatMatch env d p).eval layout σ = some (.ofBool true) := by
  match p with
  | .var _ _ => simp [pPatMatch, CExp.eval, CVal.ofBool]
  | .record xps => simpa [pPatMatch] using untestedFields_eval d xps (by simpa [tests] using h)

theorem untestedFields_eval {layout : Layout} {σ : String → Option CVal} (d : CExp)
    (xps : List (String × Pat × Typ)) (h : testsFields xps = false) :
    (pPatsMatch env d xps).eval layout σ = some (.ofBool true) := by
  match xps with
  | [] => simp [pPatsMatch, CExp.eval, CVal.ofBool]
  | [(x, p, t)] =>
    simp only [testsFields, Bool.or_false] at h
    simpa [pPatsMatch] using untested_eval (.dot d (fieldName x)) p h
  | (x, p, t) :: xp :: xps =>
    simp only [testsFields, Bool.or_eq_false_iff] at h
    simpa [pPatsMatch] using eval_and (untested_eval (.dot d (fieldName x)) p h.1)
      (fun _ => untestedFields_eval d (xp :: xps) (by simpa [testsFields] using h.2))

end

-- ---------------------------------------------------------------------------
-- Fields
-- ---------------------------------------------------------------------------

/-- A field of a record: its value, and the member of the struct that holds it. -/
theorem DenotesFields.lookup (h : DenotesFields env kinds xes xts fs)
    (hd : (structMembers xts).Nodup) (hx : (x, t) ∈ xts) :
    ∃ e v, fs.lookup x = some v ∧ Denotes env kinds e t v ∧
      (representFields env xts fs).lookup (fieldName x) = some (represent env t v) ∧
      (collapsesFields env kinds xts fs = false → collapses env kinds t v = false) := by
  cases h with
  | nil => cases hx
  | @cons _ s _ _ xts _ y h₀ hs =>
    simp only [structMembers, List.map_cons, List.nodup_cons, List.mem_map, not_exists,
      not_and] at hd
    rcases List.mem_cons.mp hx with heq | hx
    · cases heq
      refine ⟨_, _, by simp, h₀, by simp [representFields], fun hn => ?_⟩
      simp only [collapsesFields, Bool.or_eq_false_iff] at hn
      exact hn.1
    · obtain ⟨e, v, hl, hv, hr, hn⟩ := hs.lookup hd.2 hx
      have hne : fieldName x ≠ fieldName y := hd.1 (x, t) hx
      have hx' : (x == y) = false := beq_eq_false_iff_ne.mpr fun h => hne (congrArg fieldName h)
      have hm : (fieldName x == fieldName y) = false := beq_eq_false_iff_ne.mpr hne
      refine ⟨e, v, by simpa [List.lookup_cons, hx'] using hl, hv, ?_, fun h => hn ?_⟩
      · simpa [representFields, List.lookup_cons, hm] using hr
      · simp only [collapsesFields, Bool.or_eq_false_iff] at h
        exact h.2

-- ---------------------------------------------------------------------------
-- Null tests
-- ---------------------------------------------------------------------------

theorem pointer_isNull (hwf : env.WellFormed kinds) (h : Denotes env kinds e t v)
    (hu : isUnboxable t) (he : emptyList env kinds t v = false) :
    (represent env t v).equal .null = some false := by
  unfold isUnboxable at hu
  split at hu
  case h_1 n =>
    obtain ⟨hk, ⟨x, c, rfl, hc⟩ | ⟨x, c, a, e', v', rfl, hc, h'⟩⟩ := h.datatype_inv
    · cases hx : exactListConstructor env (.var c) with
      | none => simp [represent, hx, CVal.equal]
      | some r =>
        rw [emptyList, (listShaped_iff hwf).mpr ⟨n, _, rfl, hk, listDecl_of_exact hc hx⟩] at he
        cases he
    · simp only [represent, getPcArgTyp, hc, Option.bind_some]
      split <;> rfl
  case h_2 m x =>
    simp only [decide_eq_true_eq] at hu
    cases h with
    | prim hp =>
      rename_i p
      cases p with
      | string => simp [CVal.equal]
      | _ => obtain ⟨rfl, rfl | rfl⟩ := hu <;> simp [LitTyp] at hp
    | bool => simp at hu
  case h_3 => cases hu

theorem option_isNull (hwf : env.WellFormed kinds) (h : Denotes env kinds e t v)
    (he : emptyList env kinds t v = false) :
    (represent env (.option t) (.some v)).equal .null = some false := by
  by_cases hu : isUnboxable t
  · simpa [represent, hu] using pointer_isNull hwf h hu he
  · simp [represent, hu, CVal.equal]

/-- The printer tells the constructors of the datatype apart by `NULL`. -/
def ByNull (env : CjrEnv) (n : Nat) : DatatypeKind → Prop
  | .enum => False
  | .option => True
  | .default => ∃ i, ListDecl env n i

theorem ByNull.fits (hwf : env.WellFormed kinds) (hk : kinds n = some dk) (hb : ByNull env n dk)
    (hd : env.datatypes n = some (name, constrs)) : KindFits .option constrs := by
  cases dk with
  | enum => exact hb.elim
  | option => exact hwf.fits hd hk
  | default =>
    obtain ⟨i, hl⟩ := hb
    obtain ⟨_, _, hd', hf⟩ := hl.fits
    rw [hd] at hd'
    cases hd'
    exact hf

theorem byNull_of_exact (hwf : env.WellFormed kinds) (hk : kinds n = some dk)
    (hc : env.constructors c = some (x, a, n)) (hx : exactListConstructor env (.var c) = some r) :
    ByNull env n dk := by
  have hl := listDecl_of_exact hc hx
  cases dk with
  | enum =>
    obtain ⟨_, _, hd, y, d, z, d', t, rfl | rfl⟩ := hl.fits
    · exact absurd (hwf.fits hd hk (z, d', some t) (by simp)) (by simp)
    · exact absurd (hwf.fits hd hk (z, d', some t) (by simp)) (by simp)
  | option => trivial
  | default => exact ⟨_, hl⟩

theorem byNull_nullary (hwf : env.WellFormed kinds) (hb : ByNull env n dk)
    (hc : env.constructors c = some (x, none, n)) :
    represent env (.datatype dk n) (.con c none) = .null := by
  cases dk with
  | enum => exact hb.elim
  | option => simp [represent]
  | default =>
    obtain ⟨i, hl⟩ := hb
    simp [represent, hl.exact hwf hc]

theorem byNull_unary (hwf : env.WellFormed kinds) (hb : ByNull env n dk)
    (hc : env.constructors c = some (x, some a, n)) (h : Denotes env kinds e a v)
    (hn : collapses env kinds (.datatype dk n) (.con c (some v)) = false) :
    (represent env (.datatype dk n) (.con c (some v))).equal .null = some false := by
  have ha : getPcArgTyp env (.var c) = some a := by simp [getPcArgTyp, hc]
  cases dk with
  | enum => exact hb.elim
  | option =>
    by_cases hu : isUnboxable a
    · simp only [collapses, ha, decide_true, Bool.true_and, Bool.or_eq_false_iff] at hn
      simpa [represent, ha, hu] using pointer_isNull hwf h hu hn.1
    · simp [represent, ha, hu, CVal.equal]
  | default =>
    obtain ⟨i, hl⟩ := hb
    simp [represent, ha, hl.exact hwf hc, CVal.equal]

-- ---------------------------------------------------------------------------
-- The test of a pattern
-- ---------------------------------------------------------------------------

mutual

theorem untested_matches (hwf : env.WellFormed kinds) (hd : env.Declares kinds)
    (hp : Dissects env kinds p t) (h : Denotes env kinds e t v) (ht : tests p = false) :
    ∃ bs, matchPat p v = some bs := by
  match hp with
  | .var => exact ⟨_, by rw [matchPat]⟩
  | .record hs hps =>
    obtain ⟨xes, xts, fs, rfl, hs', hf⟩ := h.record_inv
    rw [hs] at hs'
    cases hs'
    obtain ⟨bs, hbs⟩ := untestedFields_matches hwf hd hps hf (hd.structs hs) (by simpa [tests] using ht)
    exact ⟨bs, by simp [matchPat, hbs]⟩
  | .prim _ | .bool | .absent | .present _ | .nil | .cons _ | .exactNil _ | .exactCons _ _
  | .con _ _ | .conArg _ _ _ => simp [tests] at ht

theorem untestedFields_matches (hwf : env.WellFormed kinds) (hd : env.Declares kinds)
    (hp : DissectsFields env kinds xps xts) (h : DenotesFields env kinds xes xts fs)
    (hn : (structMembers xts).Nodup) (ht : testsFields xps = false) :
    ∃ bs, matchFields xps fs = some bs := by
  match hp with
  | .nil => exact ⟨[], rfl⟩
  | .cons hx hp hps =>
    simp only [testsFields, Bool.or_eq_false_iff] at ht
    obtain ⟨e, v, hl, hv, -, -⟩ := h.lookup hn hx
    obtain ⟨bs, hbs⟩ := untested_matches hwf hd hp hv ht.1
    obtain ⟨bs', hbs'⟩ := untestedFields_matches hwf hd hps h hn ht.2
    exact ⟨bs ++ bs', by simp [matchFields, hl, hbs, hbs']⟩

end

theorem pPatMatch_exact (hx : exactListConstructor env pc = some r) :
    pPatMatch env d (.con dk pc none) = if r.1 = "Nil" then .eq d .null else .ne d .null := by
  obtain ⟨name, a, i⟩ := r
  rw [pPatMatch.eq_3 _ _ _ _ _ _ _ hx]

theorem pPatMatch_exactArg (hx : exactListConstructor env pc = some r) :
    pPatMatch env d (.con dk pc (some p)) =
      .and (if r.1 = "Nil" then .eq d .null else .ne d .null) (pPatMatch env (.deref d) p) := by
  obtain ⟨name, a, i⟩ := r
  rw [pPatMatch.eq_4 _ _ _ _ _ _ _ _ hx]

theorem exact_name (hc : env.constructors c = some (x, a, n))
    (hx : exactListConstructor env (.var c) = some r) : r.1 = if a.isSome then "Cons" else "Nil" := by
  obtain ⟨n', hc', -, hr⟩ := exactListConstructor_inv hx
  have h : (x, a, n) = (r.1, r.2.1, n') := Option.some.inj (hc.symm.trans hc')
  cases h
  rcases hr with ⟨h₁, h₂⟩ | ⟨h₁, h₂⟩ <;> simp [h₁, h₂]

theorem exact_boxed (hc : env.constructors c = some (x, some a, n))
    (hx : exactListConstructor env (.var c) = some r) : isUnboxable a = false := by
  obtain ⟨n', hc', -, hr⟩ := exactListConstructor_inv hx
  have ha : some a = r.2.1 := congrArg (·.2.1) (Option.some.inj (hc.symm.trans hc'))
  rcases hr with ⟨-, h⟩ | ⟨-, h⟩
  · rw [h] at ha
    cases ha
  · rw [h] at ha
    cases ha
    rfl

theorem exact_none_of (hwf : env.WellFormed kinds) (hk : kinds n = some dk)
    (hc : env.constructors c = some (x, a, n)) (hb : ¬ ByNull env n dk) :
    exactListConstructor env (.var c) = none := by
  cases hx : exactListConstructor env (.var c) with
  | none => rfl
  | some r => exact absurd (byNull_of_exact hwf hk hc hx) hb

/-- Where `NULL` stands for the constructor without an argument, it is what the test
of that constructor asks for. -/
theorem byNull_test (hb : ByNull env n dk) (hc : env.constructors c = some (x, none, n))
    (hwf : env.WellFormed kinds) :
    pPatMatch env d (.con dk (.var c) none) = .eq d .null := by
  cases hx : exactListConstructor env (.var c) with
  | some r => simp [pPatMatch_exact hx, exact_name hc hx]
  | none =>
    cases dk with
    | enum => exact hb.elim
    | option => simp [pPatMatch, hx]
    | default =>
      obtain ⟨i, hl⟩ := hb
      rw [hl.exact hwf hc] at hx
      cases hx

/-- The tag of a value, whatever its constructor. -/
theorem byTag_tag {σ : String → Option CVal} {d : CExp}
    (hc : env.constructors c = some (x, a, n)) (hx : exactListConstructor env (.var c) = none)
    (ha : a.isSome = v.isSome)
    (he : d.eval env.layout σ = some (represent env (.datatype .default n) (.con c v))) :
    (CExp.arrow d "tag").eval env.layout σ = some (.enumerator c) := by
  cases v with
  | none => simp [CExp.eval, he, represent, hx, CVal.target, CVal.member]
  | some v =>
    obtain ⟨a, rfl⟩ := Option.isSome_iff_exists.mp ha
    simp [CExp.eval, he, represent, hx, getPcArgTyp, hc, CVal.target, CVal.member]

/-- The test of a constructor without an argument. -/
theorem nullary_test {σ : String → Option CVal} {d : CExp} (hwf : env.WellFormed kinds)
    (hk : kinds n = some dk) (hc : env.constructors c = some (x, none, n))
    (h : Denotes env kinds e (.datatype dk n) v)
    (hn : collapses env kinds (.datatype dk n) v = false)
    (he : d.eval env.layout σ = some (represent env (.datatype dk n) v)) :
    (pPatMatch env d (.con dk (.var c) none)).eval env.layout σ =
      some (.ofBool (matchPat (.con dk (.var c) none) v).isSome) := by
  obtain ⟨name, constrs, hd, hm⟩ := hwf.declared hc
  by_cases hb : ByNull env n dk
  · rw [byNull_test hb hc hwf]
    obtain ⟨-, ⟨x', c', rfl, hc'⟩ | ⟨x', c', a', e', w', rfl, hc', h₁⟩⟩ := h.datatype_inv
    · cases hwf.one_each hd (hb.fits hwf hk hd) hc hc' rfl
      rw [byNull_nullary hwf hb hc'] at he
      simpa [matchPat] using (eval_isNull he (b := true) rfl).1
    · simpa [matchPat] using (eval_isNull he (byNull_unary hwf hb hc' h₁ hn)).1
  · have hx := exact_none_of hwf hk hc hb
    obtain ⟨-, ⟨x', c', rfl, hc'⟩ | ⟨x', c', a', e', w', rfl, hc', h₁⟩⟩ := h.datatype_inv
    · have hx' := exact_none_of hwf hk hc' hb
      have hcc : (matchPat (.con dk (.var c) none) (.con c' none)).isSome = decide (c' = c) := by
        by_cases hcc : c = c'
        · simp [matchPat, hcc]
        · simp [matchPat, Ne.symm hcc]
      rw [hcc]
      cases dk with
      | enum => simp [pPatMatch, hx, CExp.eval, he, represent, pPatCon, hc, CVal.equal]
      | option => exact absurd trivial hb
      | default =>
        have htag := byTag_tag hc' hx' rfl he
        rw [pPatMatch.eq_6 _ _ _ hx, CExp.eval, htag]
        simp [CExp.eval, pPatCon, hc, CVal.equal]
    · have hx' := exact_none_of hwf hk hc' hb
      have hne : c' ≠ c := by
        rintro rfl
        rw [hc] at hc'
        cases hc'
      cases dk with
      | enum =>
        obtain ⟨_, _, hd', hm'⟩ := hwf.declared hc'
        exact absurd (hwf.fits hd' hk _ hm') (by simp)
      | option => exact absurd trivial hb
      | default =>
        have htag := byTag_tag hc' hx' rfl he
        rw [pPatMatch.eq_6 _ _ _ hx, CExp.eval, htag]
        simp [CExp.eval, pPatCon, hc, CVal.equal, matchPat, hne]

/-- The cell of a list is what its pointer points to. -/
theorem listCell_eval {σ : String → Option CVal} {d : CExp} {b : CExp}
    (he : d.eval env.layout σ = some (represent env (.list t i) (.cons v)))
    (hb : (CExp.deref d).eval env.layout σ = some (represent env (.record i) v) →
      b.eval env.layout σ = some (.ofBool y)) :
    (CExp.and (.ne d .null) b).eval env.layout σ = some (.ofBool y) := by
  have hnull := (eval_isNull he (b := false) (by simp [represent, CVal.equal])).2
  simpa using eval_and hnull fun _ => hb (by simp [CExp.eval, he, represent, CVal.target])

theorem byNull_testArg (hwf : env.WellFormed kinds) (hb : ByNull env n dk)
    (hc : env.constructors c = some (x, some a, n)) :
    pPatMatch env d (.con dk (.var c) (some p)) =
      .and (.ne d .null) (pPatMatch env (if isUnboxable a then d else .deref d) p) := by
  cases hx : exactListConstructor env (.var c) with
  | some r =>
    rw [pPatMatch_exactArg hx, exact_name hc hx]
    simp [exact_boxed hc hx]
  | none =>
    cases dk with
    | enum => exact hb.elim
    | option => simp [pPatMatch, hx, getPcArgTyp, hc]
    | default =>
      obtain ⟨i, hl⟩ := hb
      rw [hl.exact hwf hc] at hx
      cases hx

/-- The argument behind a pointer that is not null. -/
theorem byNull_cell {σ : String → Option CVal} {d : CExp} (hwf : env.WellFormed kinds)
    (hb : ByNull env n dk) (hc : env.constructors c = some (x, some a, n))
    (he : d.eval env.layout σ = some (represent env (.datatype dk n) (.con c (some v)))) :
    (if isUnboxable a then d else .deref d).eval env.layout σ = some (represent env a v) := by
  have ha : getPcArgTyp env (.var c) = some a := by simp [getPcArgTyp, hc]
  cases dk with
  | enum => exact hb.elim
  | option =>
    by_cases hu : isUnboxable a
    · simpa [represent, ha, hu] using he
    · simp [CExp.eval, he, represent, ha, hu, CVal.target]
  | default =>
    obtain ⟨i, hl⟩ := hb
    have hx := hl.exact hwf hc
    simp [exact_boxed hc hx, CExp.eval, he, represent, ha, hx, CVal.target]

theorem tagged_testArg (hc : env.constructors c = some (x, a, n))
    (hx : exactListConstructor env (.var c) = none) :
    pPatMatch env d (.con .default (.var c) (some p)) =
      .and (.eq (.arrow d "tag") (.enumerator x c))
        (pPatMatch env (.arrow d (conFieldName env (.var c))) p) := by
  simp [pPatMatch, hx, pPatCon, hc]

theorem eval_tag {σ : String → Option CVal} {d : CExp}
    (h : d.eval env.layout σ = some (.enumerator c')) :
    (CExp.eq d (.enumerator x c)).eval env.layout σ = some (.ofBool (c' = c)) := by
  simp [CExp.eval, h, CVal.equal]

theorem collapses_arg (hc : env.constructors c = some (x, some a, n))
    (hn : collapses env kinds (.datatype dk n) (.con c (some v)) = false) :
    collapses env kinds a v = false := by
  simp only [collapses, getPcArgTyp, hc, Option.bind_some, Bool.or_eq_false_iff] at hn
  exact hn.2

mutual

/-- Where no test lies below a tag, the condition holds of a value's representation
exactly when the pattern matches the value. -/
theorem pPatMatch_eval {σ : String → Option CVal} {d : CExp} (hwf : env.WellFormed kinds)
    (hd : env.Declares kinds) (hp : Dissects env kinds p t) (h : Denotes env kinds e t v)
    (hn : collapses env kinds t v = false) (ht : testsBelowTag env p = false)
    (he : d.eval env.layout σ = some (represent env t v)) :
    (pPatMatch env d p).eval env.layout σ = some (.ofBool (matchPat p v).isSome) := by
  match hp with
  | .var => simp [pPatMatch, matchPat, CExp.eval, CVal.ofBool]
  | .prim (p := p) hp =>
    obtain ⟨q, rfl⟩ := h.lit_inv hp
    rw [represent_prim] at he
    have hb : (matchPat (.prim p) (.prim q)).isSome = primEq q p := by
      cases hq : primEq q p <;> simp [matchPat, hq]
    rw [hb]
    simp [pPatMatch, CExp.eval, he, CVal.equal]
  | .bool (b := b) =>
    obtain ⟨b', rfl⟩ := h.bool_inv
    rw [represent_bool] at he
    have hx : exactListConstructor env (boolCon b) = none := rfl
    simp only [pPatMatch, hx, pPatCon_boolCon]
    cases b <;> cases b' <;> simp [CExp.eval, he, CVal.equal, matchPat, boolCon]
  | .record (i := i) hs hps =>
    obtain ⟨xes, xts, fs, rfl, hs', hf⟩ := h.record_inv
    rw [hs] at hs'
    cases hs'
    simp only [collapses, hs, Option.getD_some] at hn
    by_cases hi : i = 0
    · subst hi
      rw [hwf.unit] at hs
      cases hs
      cases hps with
      | nil => simp [pPatMatch, pPatsMatch, matchPat, matchFields, CExp.eval, CVal.ofBool]
      | cons hx => cases hx
    · rw [represent_record hi hs] at he
      simpa [pPatMatch, matchPat] using
        pPatsMatch_eval hwf hd hps hf (hd.structs hs) hn (by simpa [testsBelowTag] using ht) he
  | .absent =>
    rcases h.option_inv with rfl | ⟨e₁, v₁, rfl, h₁⟩
    · simpa [pPatMatch, matchPat] using (eval_isNull he (b := true) (by simp [CVal.equal])).1
    · simp only [collapses, Bool.or_eq_false_iff] at hn
      simpa [pPatMatch, matchPat] using (eval_isNull he (option_isNull hwf h₁ hn.1)).1
  | .present (t := t) hp =>
    rcases h.option_inv with rfl | ⟨e₁, v₁, rfl, h₁⟩
    · have hnull := (eval_isNull he (b := true) (by simp [CVal.equal])).2
      simpa [pPatMatch, matchPat] using eval_and hnull (y := true) (by simp)
    · simp only [collapses, Bool.or_eq_false_iff] at hn
      have hnull := (eval_isNull he (option_isNull hwf h₁ hn.1)).2
      have hv : (if isUnboxable t then d else .deref d).eval env.layout σ =
          some (represent env t v₁) := by
        by_cases hu : isUnboxable t
        · simpa [represent, hu] using he
        · simp [CExp.eval, he, represent, hu, CVal.target]
      simpa [pPatMatch, matchPat] using eval_and hnull fun _ =>
        pPatMatch_eval hwf hd hp h₁ hn.2 (by simpa [testsBelowTag] using ht) hv
  | .nil =>
    rcases h.list_inv with rfl | ⟨e₁, v₁, rfl, h₁⟩
    · simpa [pPatMatch, matchPat] using (eval_isNull he (b := true) (by simp [CVal.equal])).1
    · simpa [pPatMatch, matchPat] using
        (eval_isNull he (b := false) (by simp [represent, CVal.equal])).1
  | .cons hp =>
    rcases h.list_inv with rfl | ⟨e₁, v₁, rfl, h₁⟩
    · have hnull := (eval_isNull he (b := true) (by simp [CVal.equal])).2
      simpa [pPatMatch, matchPat] using eval_and hnull (y := true) (by simp)
    · simpa [pPatMatch, matchPat, isUnboxable] using listCell_eval he fun hv =>
        pPatMatch_eval hwf hd hp h₁ (by simpa [collapses] using hn)
          (by simpa [testsBelowTag] using ht) hv
  | .exactNil hx =>
    rw [pPatMatch_exact hx]
    rcases h.list_inv with rfl | ⟨e₁, v₁, rfl, h₁⟩
    · simpa [matchPat] using (eval_isNull he (b := true) (by simp [CVal.equal])).1
    · simpa [matchPat] using
        (eval_isNull he (b := false) (by simp [represent, CVal.equal])).1
  | .exactCons hx hp =>
    rw [pPatMatch_exactArg hx]
    simp only [testsBelowTag, hx] at ht
    rcases h.list_inv with rfl | ⟨e₁, v₁, rfl, h₁⟩
    · have hnull := (eval_isNull he (b := true) (by simp [CVal.equal])).2
      simpa [matchPat] using eval_and hnull (y := true) (by simp)
    · simpa [matchPat] using listCell_eval he fun hv =>
        pPatMatch_eval hwf hd hp h₁ (by simpa [collapses] using hn) (by simpa using ht) hv
  | .con hc hk => exact nullary_test hwf hk hc h hn he
  | .conArg (n := n) (k := dk) (c := c) (a := a) (p := p) hc hk hp =>
    obtain ⟨name, constrs, hdt, hm⟩ := hwf.declared hc
    by_cases hb : ByNull env n dk
    · rw [byNull_testArg hwf hb hc]
      obtain ⟨-, ⟨x', c', rfl, hc'⟩ | ⟨x', c', a', e', w', rfl, hc', h₁⟩⟩ := h.datatype_inv
      · rw [byNull_nullary hwf hb hc'] at he
        have hnull := (eval_isNull he (b := true) rfl).2
        simpa [matchPat] using eval_and hnull (y := true) (by simp)
      · cases hwf.one_each hdt (hb.fits hwf hk hdt) hc hc' rfl
        rw [hc] at hc'
        cases hc'
        have hnull := (eval_isNull he (byNull_unary hwf hb hc h₁ hn)).2
        have ht' : testsBelowTag env p = false := by
          simp only [testsBelowTag, Bool.or_eq_false_iff] at ht
          exact ht.2
        simpa [matchPat] using eval_and hnull fun _ =>
          pPatMatch_eval hwf hd hp h₁ (collapses_arg hc hn) ht' (byNull_cell hwf hb hc he)
    · have hx := exact_none_of hwf hk hc hb
      cases dk with
      | enum => exact absurd (hwf.fits hdt hk _ hm) (by simp)
      | option => exact absurd trivial hb
      | default =>
        have ht' : tests p = false := by
          simp only [testsBelowTag, hx, decide_true, Option.isNone_none, Bool.true_and,
            Bool.or_eq_false_iff] at ht
          exact ht.1
        rw [tagged_testArg hc hx]
        obtain ⟨-, ⟨x', c', rfl, hc'⟩ | ⟨x', c', a', e', w', rfl, hc', h₁⟩⟩ := h.datatype_inv
        · have hne : c' ≠ c := by
            rintro rfl
            rw [hc] at hc'
            cases hc'
          have htag := byTag_tag hc' (exact_none_of hwf hk hc' hb) rfl he
          simpa [matchPat, hne] using eval_and (eval_tag (c := c) htag) (y := true) (by simp [hne])
        · have htag := byTag_tag hc' (exact_none_of hwf hk hc' hb) rfl he
          have huntested : (pPatMatch env (.arrow d (conFieldName env (.var c))) p).eval
              env.layout σ = some (.ofBool true) := untested_eval _ p ht'
          by_cases hcc : c' = c
          · subst hcc
            rw [hc] at hc'
            cases hc'
            obtain ⟨bs, hbs⟩ := untested_matches hwf hd hp h₁ ht'
            simpa [matchPat, hbs] using eval_and (eval_tag (c := c') htag) fun _ => huntested
          · simpa [matchPat, hcc, Ne.symm hcc] using eval_and (eval_tag (c := c) htag) fun _ => huntested

theorem pPatsMatch_eval {σ : String → Option CVal} {d : CExp} (hwf : env.WellFormed kinds)
    (hd : env.Declares kinds) (hp : DissectsFields env kinds xps xts)
    (h : DenotesFields env kinds xes xts fs) (hnd : (structMembers xts).Nodup)
    (hn : collapsesFields env kinds xts fs = false) (ht : testsBelowTagFields env xps = false)
    (he : d.eval env.layout σ = some (.struct (representFields env xts fs))) :
    (pPatsMatch env d xps).eval env.layout σ = some (.ofBool (matchFields xps fs).isSome) := by
  match hp with
  | .nil => simp [pPatsMatch, matchFields, CExp.eval, CVal.ofBool]
  | .cons (x := x) (t := t) (p := p) (q := xps) hx hp hps =>
    simp only [testsBelowTagFields, Bool.or_eq_false_iff] at ht
    obtain ⟨e, v, hl, hv, hr, hnv⟩ := h.lookup hnd hx
    have hdot : (CExp.dot d (fieldName x)).eval env.layout σ = some (represent env t v) := by
      simp [CExp.eval, he, CVal.member, hr]
    have hfirst := pPatMatch_eval hwf hd hp hv (hnv hn) ht.1 hdot
    have hrest := pPatsMatch_eval hwf hd hps h hnd hn ht.2 he
    have hb : (matchFields ((x, p, t) :: xps) fs).isSome =
        ((matchPat p v).isSome && (matchFields xps fs).isSome) := by
      simp only [matchFields, hl, bind, Option.bind_some]
      cases matchPat p v <;> cases matchFields xps fs <;> rfl
    rw [hb]
    cases xps with
    | nil => simpa [pPatsMatch, matchFields] using hfirst
    | cons xp xps => simpa [pPatsMatch] using eval_and hfirst fun _ => hrest

end

-- ---------------------------------------------------------------------------
-- The declarations of a pattern's variables
-- ---------------------------------------------------------------------------

/-- The declaration gives the variable the C value of the source value. -/
def Binds (env : CjrEnv) (kinds : Nat → Option DatatypeKind) (σ : String → Option CVal)
    (b : CBinding) (tv : Typ × Value) : Prop :=
  b.t = tv.1 ∧ b.init.eval env.layout σ = some (represent env tv.1 tv.2) ∧
    ∃ e, Denotes env kinds e tv.1 tv.2

theorem pPatBind_exact (hx : exactListConstructor env pc = some r) :
    pPatBind env k d (.con dk pc (some p)) = pPatBind env k (.deref d) p := by
  cases dk <;> simp [pPatBind, hx]

theorem pPatBind_byNull (hwf : env.WellFormed kinds) (hb : ByNull env n dk)
    (hc : env.constructors c = some (x, some a, n)) :
    pPatBind env k d (.con dk (.var c) (some p)) =
      pPatBind env k (if isUnboxable a then d else .deref d) p := by
  cases hx : exactListConstructor env (.var c) with
  | some r =>
    simp [pPatBind_exact hx, exact_boxed hc hx]
  | none =>
    cases dk with
    | enum => exact hb.elim
    | option => simp [pPatBind, hx, getPcArgTyp, hc]
    | default =>
      obtain ⟨i, hl⟩ := hb
      rw [hl.exact hwf hc] at hx
      cases hx

mutual

theorem pPatBind_eval {σ : String → Option CVal} {d : CExp} {bs : List (Typ × Value)}
    (hwf : env.WellFormed kinds) (hd : env.Declares kinds) (hp : Dissects env kinds p t)
    (h : Denotes env kinds e t v) (he : d.eval env.layout σ = some (represent env t v))
    (hm : matchPat p v = some bs) (k : Nat) :
    List.Forall₂ (Binds env kinds σ) (pPatBind env k d p) bs := by
  match hp with
  | .var =>
    rw [matchPat, Option.some.injEq] at hm
    subst hm
    simpa [pPatBind] using ⟨rfl, he, e, h⟩
  | .prim hp =>
    obtain ⟨q, rfl⟩ := h.lit_inv hp
    simp only [matchPat, Option.ite_none_right_eq_some, Option.some.injEq] at hm
    obtain ⟨-, rfl⟩ := hm
    simp [pPatBind]
  | .bool (b := b) =>
    obtain ⟨b', rfl⟩ := h.bool_inv
    cases b <;> cases b' <;> simp [matchPat, boolCon] at hm
    all_goals
      subst hm
      simp [pPatBind]
  | .record (i := i) hs hps =>
    obtain ⟨xes, xts, fs, rfl, hs', hf⟩ := h.record_inv
    rw [hs] at hs'
    cases hs'
    rw [matchPat] at hm
    by_cases hi : i = 0
    · subst hi
      rw [hwf.unit] at hs
      cases hs
      cases hps with
      | nil =>
        cases hm
        simp [pPatBind, pPatsBind]
      | cons hx => cases hx
    · rw [represent_record hi hs] at he
      simpa [pPatBind] using pPatsBind_eval hwf hd hps hf (hd.structs hs) he hm k
  | .absent | .nil =>
    cases v <;> simp only [matchPat, reduceCtorEq, Option.some.injEq] at hm
    all_goals
      subst hm
      simp [pPatBind]
  | .present (t := t) hp =>
    rcases h.option_inv with rfl | ⟨e₁, v₁, rfl, h₁⟩
    · simp [matchPat] at hm
    · rw [matchPat] at hm
      have hv : (if isUnboxable t then d else .deref d).eval env.layout σ =
          some (represent env t v₁) := by
        by_cases hu : isUnboxable t
        · simpa [represent, hu] using he
        · simp [CExp.eval, he, represent, hu, CVal.target]
      simpa [pPatBind] using pPatBind_eval hwf hd hp h₁ hv hm k
  | .cons hp =>
    rcases h.list_inv with rfl | ⟨e₁, v₁, rfl, h₁⟩
    · simp [matchPat] at hm
    · rw [matchPat] at hm
      simpa [pPatBind, isUnboxable] using pPatBind_eval hwf hd hp h₁
        (d := .deref d) (by simp [CExp.eval, he, represent, CVal.target]) hm k
  | .exactNil hx =>
    rcases h.list_inv with rfl | ⟨e₁, v₁, rfl, h₁⟩
    · simp only [matchPat, Option.some.injEq] at hm
      subst hm
      simp [pPatBind]
    · simp [matchPat] at hm
  | .exactCons hx hp =>
    rcases h.list_inv with rfl | ⟨e₁, v₁, rfl, h₁⟩
    · simp [matchPat] at hm
    · rw [matchPat] at hm
      rw [pPatBind_exact hx]
      exact pPatBind_eval hwf hd hp h₁ (by simp [CExp.eval, he, represent, CVal.target]) hm k
  | .con hc hk =>
    obtain ⟨-, ⟨x', c', rfl, hc'⟩ | ⟨x', c', a', e', w', rfl, hc', h₁⟩⟩ := h.datatype_inv
    · simp only [matchPat, Option.ite_none_right_eq_some, Option.some.injEq] at hm
      obtain ⟨-, rfl⟩ := hm
      simp [pPatBind]
    · simp [matchPat] at hm
  | .conArg (n := n) (k := dk) (c := c) (a := a) (p := p) hc hk hp =>
    obtain ⟨name, constrs, hdt, hmem⟩ := hwf.declared hc
    obtain ⟨-, ⟨x', c', rfl, hc'⟩ | ⟨x', c', a', e', w', rfl, hc', h₁⟩⟩ := h.datatype_inv
    · simp [matchPat] at hm
    · simp only [matchPat, Option.ite_none_right_eq_some] at hm
      obtain ⟨rfl, hm⟩ := hm
      rw [hc] at hc'
      cases hc'
      by_cases hb : ByNull env n dk
      · rw [pPatBind_byNull hwf hb hc]
        exact pPatBind_eval hwf hd hp h₁ (byNull_cell hwf hb hc he) hm k
      · have hx := exact_none_of hwf hk hc hb
        cases dk with
        | enum => exact absurd (hwf.fits hdt hk _ hmem) (by simp)
        | option => exact absurd trivial hb
        | default =>
          have ha : getPcArgTyp env (.var c') = some a := by simp [getPcArgTyp, hc]
          have hv : (CExp.dot (.arrow d "data") (conFieldName env (.var c'))).eval env.layout σ =
              some (represent env a w') := by
            simp [CExp.eval, he, represent, ha, hx, CVal.target, CVal.member, List.lookup_cons]
          simpa [pPatBind, hx] using pPatBind_eval hwf hd hp h₁ hv hm k

theorem pPatsBind_eval {σ : String → Option CVal} {d : CExp} {bs : List (Typ × Value)}
    (hwf : env.WellFormed kinds) (hd : env.Declares kinds) (hp : DissectsFields env kinds xps xts)
    (h : DenotesFields env kinds xes xts fs) (hnd : (structMembers xts).Nodup)
    (he : d.eval env.layout σ = some (.struct (representFields env xts fs)))
    (hm : matchFields xps fs = some bs) (k : Nat) :
    List.Forall₂ (Binds env kinds σ) (pPatsBind env k d xps) bs := by
  match hp with
  | .nil =>
    cases hm
    simp [pPatsBind]
  | .cons (x := x) (t := t) (p := p) (q := xps) hx hp hps =>
    obtain ⟨e, v, hl, hv, hr, -⟩ := h.lookup hnd hx
    have hdot : (CExp.dot d (fieldName x)).eval env.layout σ = some (represent env t v) := by
      simp [CExp.eval, he, CVal.member, hr]
    simp only [matchFields, hl, bind, Option.bind_some, Option.bind_eq_some_iff, pure,
      Option.some.injEq] at hm
    obtain ⟨bs₁, hm₁, bs₂, hm₂, rfl⟩ := hm
    exact List.rel_append (pPatBind_eval hwf hd hp hv hdot hm₁ k)
      (pPatsBind_eval hwf hd hps h hnd he hm₂ _)

end

-- ---------------------------------------------------------------------------
-- The members a test names
-- ---------------------------------------------------------------------------

theorem conFieldName_undeclared (env : CjrEnv) (pc : PatCon) :
    conFieldName env pc ∉ taggedMembers := by
  have h : ∃ s, conFieldName env pc = "uw_" ++ s := by
    cases pc with
    | var n =>
      simp only [conFieldName]
      split
      · exact ⟨_, rfl⟩
      · exact ⟨"UNBOUND_" ++ toString n, by rw [← String.append_assoc]; rfl⟩
    | ffi m datatyp con arg => exact ⟨_, by simp only [conFieldName, String.append_assoc]; rfl⟩
  obtain ⟨s, hs⟩ := h
  rw [hs]
  simp only [taggedMembers, List.mem_cons, List.not_mem_nil, or_false, not_or]
  constructor
  · intro h
    have := congrArg String.toList h
    simp at this
  · intro h
    have := congrArg String.toList h
    simp at this

/-- Every struct that the expression reaches through a pointer has the member it names. -/
def CExp.Declared (c : CExp) : Prop := ∀ m ∈ c.arrows, m ∈ taggedMembers

section
variable {a b : CExp}

@[simp] theorem declared_name : (CExp.name x).Declared := List.forall_mem_nil _
@[simp] theorem declared_int : (CExp.int n).Declared := List.forall_mem_nil _
@[simp] theorem declared_lit : (CExp.lit p).Declared := List.forall_mem_nil _
@[simp] theorem declared_null : CExp.null.Declared := List.forall_mem_nil _
@[simp] theorem declared_enumerator : (CExp.enumerator x n).Declared := List.forall_mem_nil _
@[simp] theorem declared_constant : (CExp.constant x).Declared := List.forall_mem_nil _
@[simp] theorem declared_deref : (CExp.deref a).Declared ↔ a.Declared := Iff.rfl
@[simp] theorem declared_dot : (CExp.dot a m).Declared ↔ a.Declared := Iff.rfl

@[simp] theorem declared_arrow : (CExp.arrow a m).Declared ↔ a.Declared ∧ m ∈ taggedMembers :=
  List.forall_mem_append.trans (and_congr_right' List.forall_mem_singleton)

@[simp] theorem declared_eq : (CExp.eq a b).Declared ↔ a.Declared ∧ b.Declared :=
  List.forall_mem_append

@[simp] theorem declared_ne : (CExp.ne a b).Declared ↔ a.Declared ∧ b.Declared :=
  List.forall_mem_append

@[simp] theorem declared_and : (CExp.and a b).Declared ↔ a.Declared ∧ b.Declared :=
  List.forall_mem_append

end

@[simp] theorem declared_pPatCon (env : CjrEnv) (pc : PatCon) : (pPatCon env pc).Declared := by
  unfold pPatCon
  split
  · split <;> simp
  · split <;> simp

mutual

theorem untested_declared (d : CExp) (p : Pat) (h : tests p = false) :
    (pPatMatch env d p).Declared := by
  match p with
  | .var _ _ => simp [pPatMatch]
  | .record xps => simpa [pPatMatch] using untestedFields_declared d xps (by simpa [tests] using h)

theorem untestedFields_declared (d : CExp) (xps : List (String × Pat × Typ))
    (h : testsFields xps = false) : (pPatsMatch env d xps).Declared := by
  match xps with
  | [] => simp [pPatsMatch]
  | [(x, p, t)] =>
    simp only [testsFields, Bool.or_false] at h
    simpa [pPatsMatch] using untested_declared (.dot d (fieldName x)) p h
  | (x, p, t) :: xp :: xps =>
    simp only [testsFields, Bool.or_eq_false_iff] at h
    simpa [pPatsMatch] using And.intro (untested_declared (.dot d (fieldName x)) p h.1)
      (untestedFields_declared d (xp :: xps) (by simpa [testsFields] using h.2))

end

mutual

theorem tested_declared (d : CExp) (p : Pat) (h : tests p)
    (hd : (pPatMatch env d p).Declared) : d.Declared := by
  match p with
  | .var _ _ => cases h
  | .prim _ | .none _ => simpa [pPatMatch] using hd
  | .some _ _ =>
    simp only [pPatMatch, declared_and, declared_ne] at hd
    exact hd.1.1
  | .record xps => exact testedFields_declared d xps h (by simpa [pPatMatch] using hd)
  | .con dk pc none =>
    cases hx : exactListConstructor env pc with
    | some r =>
      rw [pPatMatch_exact hx] at hd
      split at hd <;> simpa using hd
    | none => cases dk <;> simp_all [pPatMatch]
  | .con dk pc (some p) =>
    cases hx : exactListConstructor env pc with
    | some r =>
      rw [pPatMatch_exactArg hx, declared_and] at hd
      split at hd <;> simpa using hd.1
    | none => cases dk <;> simp_all [pPatMatch]

theorem testedFields_declared (d : CExp) (xps : List (String × Pat × Typ)) (h : testsFields xps)
    (hd : (pPatsMatch env d xps).Declared) : d.Declared := by
  match xps with
  | [] => cases h
  | [(x, p, t)] =>
    simp only [testsFields, Bool.or_false] at h
    simpa using tested_declared (.dot d (fieldName x)) p h (by simpa [pPatsMatch] using hd)
  | (x, p, t) :: xp :: xps =>
    simp only [testsFields, Bool.or_eq_true] at h
    simp only [pPatsMatch, declared_and] at hd
    rcases h with h | h
    · simpa using tested_declared (.dot d (fieldName x)) p h hd.1
    · exact testedFields_declared d (xp :: xps) (by simpa [testsFields] using h) hd.2

end

mutual

theorem testsBelowTag_untested (p : Pat) (h : tests p = false) : testsBelowTag env p = false := by
  match p with
  | .var _ _ => simp [testsBelowTag]
  | .record xps => simpa [testsBelowTag] using testsBelowTagFields_untested xps h

theorem testsBelowTagFields_untested (xps : List (String × Pat × Typ))
    (h : testsFields xps = false) : testsBelowTagFields env xps = false := by
  match xps with
  | [] => rfl
  | (x, p, t) :: xps =>
    simp only [testsFields, Bool.or_eq_false_iff] at h
    simpa [testsBelowTagFields] using
      And.intro (testsBelowTag_untested p h.1) (testsBelowTagFields_untested xps h.2)

end

mutual

/-- The test of a pattern keeps to the declared members exactly when it tests nothing
below a tag. -/
theorem pPatMatch_declared (d : CExp) (p : Pat) (hd : d.Declared) :
    (pPatMatch env d p).Declared ↔ testsBelowTag env p = false := by
  match p with
  | .var _ _ | .prim _ | .none _ => simp [pPatMatch, testsBelowTag, hd]
  | .record xps => simpa [pPatMatch, testsBelowTag] using pPatsMatch_declared d xps hd
  | .some t p =>
    have h := pPatMatch_declared (if isUnboxable t then d else .deref d) p (by split <;> simpa)
    simpa [pPatMatch, testsBelowTag, hd] using h
  | .con dk pc none =>
    cases hx : exactListConstructor env pc with
    | some r =>
      rw [pPatMatch_exact hx]
      split <;> simp [hd, testsBelowTag]
    | none => cases dk <;> simp [pPatMatch, hx, hd, testsBelowTag, taggedMembers]
  | .con dk pc (some p) =>
    cases hx : exactListConstructor env pc with
    | some r =>
      have h := pPatMatch_declared (.deref d) p (by simpa)
      rw [pPatMatch_exactArg hx, declared_and, h]
      split <;> simp [hd, testsBelowTag, hx]
    | none =>
      cases dk with
      | enum => simpa [pPatMatch, hx, hd, testsBelowTag] using pPatMatch_declared d p hd
      | option =>
        have h := pPatMatch_declared
          (if (getPcArgTyp env pc).any isUnboxable then d else .deref d) p (by split <;> simpa)
        simpa [pPatMatch, hx, hd, testsBelowTag] using h
      | default =>
        have hm := conFieldName_undeclared env pc
        by_cases ht : tests p = true
        · have hno : ¬ (pPatMatch env (.arrow d (conFieldName env pc)) p).Declared := by
            intro h
            exact hm ((declared_arrow.mp (tested_declared _ p ht h)).2)
          simp [pPatMatch, hx, testsBelowTag, ht, hno]
        · rw [Bool.not_eq_true] at ht
          simp [pPatMatch, hx, testsBelowTag, ht, hd, taggedMembers,
            untested_declared _ p ht, testsBelowTag_untested p ht]

theorem pPatsMatch_declared (d : CExp) (xps : List (String × Pat × Typ)) (hd : d.Declared) :
    (pPatsMatch env d xps).Declared ↔ testsBelowTagFields env xps = false := by
  match xps with
  | [] => simp [pPatsMatch, testsBelowTagFields]
  | [(x, p, t)] =>
    simpa [pPatsMatch, testsBelowTagFields] using
      pPatMatch_declared (.dot d (fieldName x)) p (by simpa)
  | (x, p, t) :: xp :: xps =>
    have h₁ := pPatMatch_declared (.dot d (fieldName x)) p (by simpa)
    have h₂ := pPatsMatch_declared d (xp :: xps) hd
    have ht : testsBelowTagFields env ((x, p, t) :: xp :: xps) =
        (testsBelowTag env p || testsBelowTagFields env (xp :: xps)) := rfl
    rw [pPatsMatch, declared_and, h₁, h₂, ht, Bool.or_eq_false_iff]
    exact List.cons_ne_nil xp xps

end

mutual

theorem pPatBind_declared (k : Nat) (d : CExp) (p : Pat) (hd : d.Declared) :
    ∀ b ∈ pPatBind env k d p, b.init.Declared := by
  match p with
  | .var _ _ => simpa [pPatBind] using hd
  | .prim _ | .none _ | .con _ _ none => simp [pPatBind]
  | .record xps => simpa [pPatBind] using pPatsBind_declared k d xps hd
  | .some t p =>
    simpa [pPatBind] using
      pPatBind_declared k (if isUnboxable t then d else .deref d) p (by split <;> simpa)
  | .con dk pc (some p) =>
    cases hx : exactListConstructor env pc with
    | some r =>
      rw [pPatBind_exact hx]
      exact pPatBind_declared k (.deref d) p (by simpa)
    | none =>
      cases dk with
      | enum => simpa [pPatBind, hx] using pPatBind_declared k d p hd
      | default =>
        simpa [pPatBind, hx] using
          pPatBind_declared k (.dot (.arrow d "data") (conFieldName env pc)) p
            (by simp [hd, taggedMembers])
      | option =>
        simpa [pPatBind, hx] using pPatBind_declared k
          (if (getPcArgTyp env pc).any isUnboxable then d else .deref d) p (by split <;> simpa)

theorem pPatsBind_declared (k : Nat) (d : CExp) (xps : List (String × Pat × Typ))
    (hd : d.Declared) : ∀ b ∈ pPatsBind env k d xps, b.init.Declared := by
  match xps with
  | [] => simp [pPatsBind]
  | (x, p, t) :: xps =>
    intro b hb
    rcases List.mem_append.mp hb with hb | hb
    · exact pPatBind_declared k (.dot d (fieldName x)) p (by simpa) b hb
    · exact pPatsBind_declared _ d xps hd b hb

end

end UrWeb.Cjr
