import UrWeb.Cjr.Values
import Mathlib.Data.List.Basic

/-!
# The C values of source values

What the constructor code of a value evaluates to, as a function of the value
and its type, and when a pointer that should not be null is.
-/

namespace UrWeb.Cjr

section
variable (env : CjrEnv) (kinds : Nat → Option DatatypeKind)

-- ---------------------------------------------------------------------------
-- The representation
-- ---------------------------------------------------------------------------

mutual

def represent : Typ → Value → CVal
  | _, .prim p => .prim p
  | _, .bool b => .constant (if b then "uw_Basis_True" else "uw_Basis_False")
  | .record 0, .record _ => .int 0
  | .record i, .record fs => .struct (representFields ((env.structs i).getD []) fs)
  | .option t, .some v => if isUnboxable t then represent t v else .ptr (represent t v)
  | .list _ i, .cons v => .ptr (represent (.record i) v)
  | .datatype .enum _, .con c _ => .enumerator c
  | .datatype .option _, .con c (some v) =>
    match getPcArgTyp env (.var c) with
    | some a => if isUnboxable a then represent a v else .ptr (represent a v)
    | none => .null
  | .datatype .default _, .con c none =>
    match exactListConstructor env (.var c) with
    | some _ => .null
    | none => .ptr (.struct [("tag", .enumerator c)])
  | .datatype .default _, .con c (some v) =>
    match getPcArgTyp env (.var c) with
    | some a =>
      match exactListConstructor env (.var c) with
      | some _ => .ptr (represent a v)
      | none =>
        .ptr (.struct [("tag", .enumerator c),
          ("data", .struct [(conFieldName env (.var c), represent a v)])])
    | none => .null
  | _, _ => .null

def representFields : List (String × Typ) → List (String × Value) → List (String × CVal)
  | (x, t) :: xts, (_, v) :: fs => (fieldName x, represent t v) :: representFields xts fs
  | _, _ => []

end

/-- The value of an expression built from constructors. -/
def CjrEnv.built (e : Exp) : Option CVal := do
  (← pExp env e).eval env.layout fun _ => none

-- ---------------------------------------------------------------------------
-- Null
-- ---------------------------------------------------------------------------

/-- A type that counts as a pointer although `NULL` is one of its values: a datatype
that the printer reads as a list. -/
def listShaped : Typ → Bool
  | .datatype .default n =>
    kinds n = some .default &&
      (env.datatypes n).any fun d => d.2.any fun k => (exactListConstructor env (.var k.2.1)).isSome
  | _ => false

def emptyList (t : Typ) : Value → Bool
  | .con _ none => listShaped env kinds t
  | _ => false

mutual

/-- Some option in the value is a missing list-shaped datatype, or an empty one that is there. -/
def collapses : Typ → Value → Bool
  | .option t, .none => listShaped env kinds t
  | .option t, .some v => emptyList env kinds t v || collapses t v
  | .list _ i, .cons v => collapses (.record i) v
  | .record i, .record fs => collapsesFields ((env.structs i).getD []) fs
  | .datatype .option n, .con _ none =>
    (env.datatypes n).any fun d => d.2.any fun k => k.2.2.any (listShaped env kinds)
  | .datatype dk _, .con c (some v) =>
    match getPcArgTyp env (.var c) with
    | some a => dk = .option && emptyList env kinds a v || collapses a v
    | none => false
  | _, _ => false

def collapsesFields : List (String × Typ) → List (String × Value) → Bool
  | (_, t) :: xts, (_, v) :: fs => collapses t v || collapsesFields xts fs
  | _, _ => false

end

end

variable {env : CjrEnv} {kinds : Nat → Option DatatypeKind}

-- ---------------------------------------------------------------------------
-- Datatypes declared as lists
-- ---------------------------------------------------------------------------

/-- The datatype is declared as a list whose cells are the struct. -/
def ListDecl (env : CjrEnv) (n i : Nat) : Prop :=
  ∃ name c d, (env.datatypes n = some (name, [("Nil", c, none), ("Cons", d, some (.record i))]) ∨
    env.datatypes n = some (name, [("Cons", d, some (.record i)), ("Nil", c, none)])) ∧
    exactListRecordId env (.record i) = some i

theorem exactListRecordId_inv {t : Typ} (h : exactListRecordId env t = some i) : t = .record i := by
  unfold exactListRecordId at h
  split at h
  · split at h
    · simp only [Option.ite_none_right_eq_some, Option.some.injEq] at h
      rw [h.2]
    · cases h
  · cases h

theorem listDecl_of_two {constrs : List Constr} (hl : constrs.length = 2)
    (hn : constrs.any (fun k => k.1 = "Nil" && k.2.2.isNone))
    (hc : constrs.findSome? (fun k => if k.1 = "Cons" then k.2.2 else none) = some t) :
    ∃ c d, constrs = [("Nil", c, none), ("Cons", d, some t)] ∨
      constrs = [("Cons", d, some t), ("Nil", c, none)] := by
  obtain ⟨⟨x, c, a⟩, ⟨y, d, b⟩, rfl⟩ := List.length_eq_two.mp hl
  cases a <;> cases b <;> simp_all
  all_goals grind

theorem exactListConstructor_inv (h : exactListConstructor env (.var c) = some (x, a, i)) :
    ∃ n, env.constructors c = some (x, a, n) ∧ ListDecl env n i ∧
      (x = "Nil" ∧ a = none ∨ x = "Cons" ∧ a = some (.record i)) := by
  simp only [exactListConstructor, bind, Option.bind_eq_some_iff, Prod.exists] at h
  obtain ⟨name, payload, n, hc, dname, constrs, hd, h⟩ := h
  split at h
  case isTrue => cases h
  case isFalse hs =>
    rw [Option.bind_eq_some_iff] at h
    obtain ⟨t, ht, h⟩ := h
    rw [Option.bind_eq_some_iff] at h
    obtain ⟨i', hi, h⟩ := h
    cases exactListRecordId_inv hi
    simp only [not_or, Decidable.not_not, ne_eq] at hs
    obtain ⟨c', d', hcs⟩ := listDecl_of_two hs.1 hs.2 ht
    have hl : ListDecl env n i' := by
      refine ⟨dname, c', d', ?_, hi⟩
      rcases hcs with rfl | rfl
      · exact .inl hd
      · exact .inr hd
    split at h
    case isTrue hn =>
      cases h
      exact ⟨n, hc, hl, .inl ⟨hn.1, Option.isNone_iff_eq_none.mp hn.2⟩⟩
    case isFalse =>
      split at h
      case isTrue hn =>
        cases h
        obtain ⟨t, ht, hi⟩ := hn.2
        cases exactListRecordId_inv hi
        exact ⟨n, hc, hl, .inr ⟨hn.1, ht⟩⟩
      case isFalse => cases h

theorem ListDecl.exact (hl : ListDecl env n i) (hwf : env.WellFormed kinds)
    (hc : env.constructors c = some (x, a, n)) :
    exactListConstructor env (.var c) = some (x, a, i) := by
  obtain ⟨name, cn, cc, hd, hi⟩ := hl
  obtain ⟨name', constrs, hd', hm⟩ := hwf.declared hc
  rcases hd with hd | hd <;>
  · rw [hd] at hd'
    cases hd'
    simp only [List.mem_cons, List.not_mem_nil, or_false, Prod.mk.injEq] at hm
    rcases hm with ⟨rfl, rfl, rfl⟩ | ⟨rfl, rfl, rfl⟩ <;>
      simp [exactListConstructor, hc, hd, hi]

theorem listDecl_of_exact (hc : env.constructors c = some (x, a, n))
    (hx : exactListConstructor env (.var c) = some r) : ListDecl env n r.2.2 := by
  obtain ⟨n', hc', hl, _⟩ := exactListConstructor_inv hx
  have h : (x, a, n) = (r.1, r.2.1, n') := Option.some.inj (hc.symm.trans hc')
  cases h
  exact hl

theorem exactListConstructor_none (hwf : env.WellFormed kinds)
    (hc : env.constructors c = some (x, a, n)) (hc' : env.constructors c' = some (x', a', n))
    (hx : exactListConstructor env (.var c) = none) : exactListConstructor env (.var c') = none := by
  cases hx' : exactListConstructor env (.var c') with
  | none => rfl
  | some r =>
    rw [(listDecl_of_exact hc' hx').exact hwf hc] at hx
    cases hx

-- ---------------------------------------------------------------------------
-- What constructor code evaluates to
-- ---------------------------------------------------------------------------

attribute [local simp] represent in
@[simp] theorem represent_prim (t : Typ) : represent env t (.prim p) = .prim p := by
  simp

@[simp] theorem represent_bool (t : Typ) : represent env t (.bool b) =
    .constant (if b then "uw_Basis_True" else "uw_Basis_False") := by
  simp [represent]

theorem pPatCon_boolCon (b : Bool) :
    pPatCon env (boolCon b) = .constant (if b then "uw_Basis_True" else "uw_Basis_False") := by
  cases b <;> rfl

@[simp] theorem represent_none (t : Typ) : represent env t .none = .null := by
  cases t <;> simp [represent]

@[simp] theorem represent_nil (t : Typ) : represent env t .nil = .null := by
  cases t <;> simp [represent]

theorem represent_record (hi : i ≠ 0) (hs : env.structs i = some xts) :
    represent env (.record i) (.record fs) = .struct (representFields env xts fs) := by
  cases i with
  | zero => exact absurd rfl hi
  | succ i => simp [represent, hs]

theorem DenotesFields.names (h : DenotesFields env kinds xes xts fs) :
    structMembers xts = (representFields env xts fs).map (·.1) := by
  match h with
  | .nil => rfl
  | .cons _ hs => simpa [structMembers, representFields] using hs.names

mutual

theorem pExp_represent (hwf : env.WellFormed kinds) (h : Denotes env kinds e t v) :
    ∃ c, pExp env e = some c ∧ ∀ σ, c.eval env.layout σ = some (represent env t v) := by
  match h with
  | .prim _ => exact ⟨_, rfl, fun _ => by simp [CExp.eval]⟩
  | .bool (b := b) =>
    exact ⟨_, rfl, fun _ => by simp [pPatCon_boolCon, CExp.eval]⟩
  | .record (i := i) (s := xts) (r := xes) (f := fs) hs hf =>
    by_cases hi : i = 0
    · subst hi
      exact ⟨.int 0, by simp [pExp], fun _ => by simp [CExp.eval, represent]⟩
    · obtain ⟨cs, hcs, hv⟩ := pExps_represent hwf hf
      refine ⟨.struct i cs, by simp [pExp, hcs], fun σ => ?_⟩
      have hn := hf.names
      simp only [CExp.eval, CjrEnv.layout, hs, Option.map_some, bind, Option.bind_some, hv σ,
        pure, represent_record hi hs]
      rw [hn, if_pos (by simp), List.zip_map']
      simp
  | .absent => exact ⟨.null, rfl, fun _ => by simp [CExp.eval]⟩
  | .present (t := t) h' =>
    obtain ⟨c, hc, hv⟩ := pExp_represent hwf h'
    refine ⟨if isUnboxable t then c else .alloc (some t) c, by simp [pExp, hc], fun σ => ?_⟩
    by_cases hu : isUnboxable t
    · simp [hu, hv, represent]
    · simp [hu, hv, represent, CExp.eval]
  | .nil => exact ⟨.null, rfl, fun _ => by simp [CExp.eval]⟩
  | .cons (i := i) h' =>
    obtain ⟨c, hc, hv⟩ := pExp_represent hwf h'
    exact ⟨.alloc (some (.record i)) c, by simp [pExp, hc, isUnboxable],
      fun σ => by simp [CExp.eval, hv, represent]⟩
  | .exactNil hx => exact ⟨.null, by simp [pExp, hx], fun _ => by simp [CExp.eval]⟩
  | .exactCons (i := i) hx h' =>
    obtain ⟨c, hc, hv⟩ := pExp_represent hwf h'
    exact ⟨.alloc (some (.record i)) c, by simp [pExp, hx, hc],
      fun σ => by simp [CExp.eval, hv, represent]⟩
  | .con (k := dk) (n := n) (c := c) hc hk =>
    obtain ⟨name, constrs, hd, hm⟩ := hwf.declared hc
    cases dk with
    | enum => exact ⟨_, rfl, fun _ => by simp [CExp.eval, pPatCon, hc, represent]⟩
    | option => exact ⟨.null, rfl, fun _ => by simp [CExp.eval, represent]⟩
    | default =>
      cases hx : exactListConstructor env (.var c) with
      | some r => exact ⟨.null, by simp [pExp, hx], fun _ => by simp [CExp.eval, represent, hx]⟩
      | none =>
        exact ⟨_, by simp [pExp, hx]; rfl,
          fun _ => by simp [patConInfo, hc, CExp.eval, represent, hx]⟩
  | .conArg (a := a) (k := dk) (n := n) (c := c) hc hk h' =>
    obtain ⟨ce, hce, hv⟩ := pExp_represent hwf h'
    obtain ⟨name, constrs, hd, hm⟩ := hwf.declared hc
    have ha : getPcArgTyp env (.var c) = some a := by simp [getPcArgTyp, hc]
    cases dk with
    | enum => exact absurd (hwf.fits hd hk _ hm) (by simp)
    | option =>
      refine ⟨if isUnboxable a then ce else .alloc (some a) ce, by simp [pExp, hce, ha], ?_⟩
      intro σ
      by_cases hu : isUnboxable a
      · simp [hu, hv, represent, ha]
      · simp [hu, hv, represent, ha, CExp.eval]
    | default =>
      cases hx : exactListConstructor env (.var c) with
      | some r =>
        obtain ⟨x, b, i⟩ := r
        obtain ⟨n', hc', _, hxa⟩ := exactListConstructor_inv hx
        rw [hc] at hc'
        obtain ⟨rfl, rfl⟩ : x = "Cons" ∧ a = .record i := by
          rcases hxa with ⟨rfl, rfl⟩ | ⟨rfl, rfl⟩ <;> simp_all
        exact ⟨.alloc (some (.record i)) ce, by simp_all [pExp], fun σ => by
          simp [CExp.eval, represent, hx, hv, ha]⟩
      | none =>
        exact ⟨_, by simp [pExp, hx, hce]; rfl,
          fun σ => by simp [patConInfo, hc, CExp.eval, represent, hx, hv, ha, conFieldName]⟩

theorem pExps_represent (hwf : env.WellFormed kinds) (h : DenotesFields env kinds xes xts fs) :
    ∃ cs, pExps env xes = some cs ∧
      ∀ σ, CExp.evalAll env.layout σ cs = some ((representFields env xts fs).map (·.2)) := by
  match h with
  | .nil => exact ⟨[], rfl, fun _ => rfl⟩
  | .cons h' hs =>
    obtain ⟨c, hc, hv⟩ := pExp_represent hwf h'
    obtain ⟨cs, hcs, hvs⟩ := pExps_represent hwf hs
    exact ⟨c :: cs, by simp [pExps, hc, hcs], fun σ => by
      simp [CExp.evalAll, hv, hvs, representFields]⟩

end

theorem built_represent (hwf : env.WellFormed kinds) (h : Denotes env kinds e t v) :
    env.built e = some (represent env t v) := by
  obtain ⟨c, hc, hv⟩ := pExp_represent hwf h
  simp [CjrEnv.built, hc, hv]

-- ---------------------------------------------------------------------------
-- Values by type
-- ---------------------------------------------------------------------------

theorem LitTyp.ffi (h : LitTyp p t) : ∃ x, t = .ffi "Basis" x := by
  cases p with
  | string => exact h.elim (fun h => ⟨_, h⟩) (fun h => ⟨_, h⟩)
  | _ => exact ⟨_, h⟩

theorem Denotes.lit_inv (h : Denotes env kinds e t v) (hp : LitTyp p t) : ∃ q, v = .prim q := by
  obtain ⟨x, rfl⟩ := hp.ffi
  cases h with
  | prim => exact ⟨_, rfl⟩
  | bool =>
    cases p with
    | string => rcases hp with hp | hp <;> simp at hp
    | _ => simp [LitTyp] at hp

theorem Denotes.bool_inv (h : Denotes env kinds e (.ffi "Basis" "bool") v) : ∃ b, v = .bool b := by
  cases h with
  | prim hp =>
    rename_i p
    cases p with
    | string => rcases hp with hp | hp <;> simp at hp
    | _ => simp [LitTyp] at hp
  | bool => exact ⟨_, rfl⟩

theorem Denotes.option_inv (h : Denotes env kinds e (.option t) v) :
    v = .none ∨ ∃ e' v', v = .some v' ∧ Denotes env kinds e' t v' := by
  cases h with
  | prim hp => obtain ⟨x, hx⟩ := hp.ffi; cases hx
  | absent => exact .inl rfl
  | present h => exact .inr ⟨_, _, rfl, h⟩

theorem Denotes.list_inv (h : Denotes env kinds e (.list t i) v) :
    v = .nil ∨ ∃ e' v', v = .cons v' ∧ Denotes env kinds e' (.record i) v' := by
  cases h with
  | prim hp => obtain ⟨x, hx⟩ := hp.ffi; cases hx
  | nil | exactNil => exact .inl rfl
  | cons h | exactCons _ h => exact .inr ⟨_, _, rfl, h⟩

theorem Denotes.record_inv (h : Denotes env kinds e (.record i) v) :
    ∃ xes xts fs, v = .record fs ∧ env.structs i = some xts ∧
      DenotesFields env kinds xes xts fs := by
  cases h with
  | prim hp => obtain ⟨x, hx⟩ := hp.ffi; cases hx
  | record hs hf => exact ⟨_, _, _, rfl, hs, hf⟩

theorem Denotes.datatype_inv (h : Denotes env kinds e (.datatype dk n) v) :
    kinds n = some dk ∧
      ((∃ x c, v = .con c none ∧ env.constructors c = some (x, none, n)) ∨
        ∃ x c a e' v', v = .con c (some v') ∧ env.constructors c = some (x, some a, n) ∧
          Denotes env kinds e' a v') := by
  cases h with
  | prim hp => obtain ⟨x, hx⟩ := hp.ffi; cases hx
  | con hc hk => exact ⟨hk, .inl ⟨_, _, rfl, hc⟩⟩
  | conArg hc hk h => exact ⟨hk, .inr ⟨_, _, _, _, _, rfl, hc, h⟩⟩

-- ---------------------------------------------------------------------------
-- Different values are built differently
-- ---------------------------------------------------------------------------

/-- Of one nullary and one unary constructor, each is known by which it is. -/
theorem CjrEnv.WellFormed.one_each (hwf : env.WellFormed kinds)
    (hd : env.datatypes n = some (name, constrs)) (hk : KindFits .option constrs)
    (hc : env.constructors c = some (x, a, n)) (hc' : env.constructors c' = some (x', a', n))
    (h : a.isSome = a'.isSome) : c = c' := by
  obtain ⟨_, _, hd₁, hm⟩ := hwf.declared hc
  obtain ⟨_, _, hd₂, hm'⟩ := hwf.declared hc'
  rw [hd] at hd₁ hd₂
  cases hd₁
  cases hd₂
  obtain ⟨y, d, z, d', t, rfl | rfl⟩ := hk <;> simp_all <;> grind

theorem ListDecl.fits (h : ListDecl env n i) :
    ∃ name constrs, env.datatypes n = some (name, constrs) ∧ KindFits .option constrs := by
  obtain ⟨name, c, d, h | h, _⟩ := h
  · exact ⟨_, _, h, _, _, _, _, _, .inl rfl⟩
  · exact ⟨_, _, h, _, _, _, _, _, .inr rfl⟩

theorem listShaped_iff (hwf : env.WellFormed kinds) :
    listShaped env kinds t ↔
      ∃ n i, t = .datatype .default n ∧ kinds n = some .default ∧ ListDecl env n i := by
  constructor
  · intro h
    unfold listShaped at h
    split at h
    case h_2 => cases h
    case h_1 n =>
      simp only [Bool.and_eq_true, decide_eq_true_eq, Option.any_eq_true, List.any_eq_true,
        Option.isSome_iff_exists, Prod.exists] at h
      obtain ⟨hk, name, constrs, hd, x, c, a, hm, x', a', i, hx⟩ := h
      obtain ⟨n', hc, hl, _⟩ := exactListConstructor_inv hx
      rw [hwf.listed hd hm] at hc
      cases hc
      exact ⟨n, i, rfl, hk, hl⟩
  · rintro ⟨n, i, rfl, hk, hl⟩
    obtain ⟨name, c, d, hd, hi⟩ := id hl
    have hm : ∃ constrs, env.datatypes n = some (name, constrs) ∧ ("Nil", c, none) ∈ constrs := by
      rcases hd with hd | hd
      · exact ⟨_, hd, by simp⟩
      · exact ⟨_, hd, by simp⟩
    obtain ⟨constrs, hd, hm⟩ := hm
    simp only [listShaped, hk, decide_true, Bool.true_and, hd, Option.any_some, List.any_eq_true]
    exact ⟨_, hm, by simp [hl.exact hwf (hwf.listed hd hm)]⟩

theorem emptyList_shaped (h : emptyList env kinds t v) : listShaped env kinds t := by
  unfold emptyList at h
  split at h
  · exact h
  · cases h

/-- Only a list-shaped datatype is null among the types that count as pointers. -/
theorem represent_null (hwf : env.WellFormed kinds) (h : Denotes env kinds e t v)
    (hu : isUnboxable t) (hr : represent env t v = .null) : emptyList env kinds t v := by
  unfold isUnboxable at hu
  split at hu
  case h_1 n =>
    obtain ⟨hk, ⟨x, c, rfl, hc⟩ | ⟨x, c, a, e', v', rfl, hc, h'⟩⟩ := h.datatype_inv
    · cases hx : exactListConstructor env (.var c) with
      | none => simp [represent, hx] at hr
      | some r =>
        exact (listShaped_iff hwf).mpr ⟨n, _, rfl, hk, listDecl_of_exact hc hx⟩
    · simp only [represent, getPcArgTyp, hc, Option.bind_some] at hr
      split at hr <;> cases hr
  case h_2 =>
    cases h with
    | prim | bool => simp at hr
  case h_3 => cases hu

theorem represent_nullary (hwf : env.WellFormed kinds) (hk : kinds n = some dk)
    (hc : env.constructors c = some (x, none, n)) (hc' : env.constructors c' = some (x', none, n))
    (hr : represent env (.datatype dk n) (.con c none) =
      represent env (.datatype dk n) (.con c' none)) : c = c' := by
  obtain ⟨name, constrs, hd, hm⟩ := hwf.declared hc
  cases dk with
  | enum => simpa [represent] using hr
  | option => exact hwf.one_each hd (hwf.fits hd hk) hc hc' rfl
  | default =>
    simp only [represent] at hr
    cases hx : exactListConstructor env (.var c) with
    | some r =>
      obtain ⟨_, _, hd', hfit⟩ := (listDecl_of_exact hc hx).fits
      exact hwf.one_each hd' hfit hc hc' rfl
    | none =>
      cases hx' : exactListConstructor env (.var c') with
      | some r => simp [hx, hx'] at hr
      | none => simpa [hx, hx'] using hr

theorem represent_unary (hwf : env.WellFormed kinds) (hk : kinds n = some dk)
    (hc : env.constructors c = some (x, some a, n))
    (hc' : env.constructors c' = some (x', some a', n))
    (hr : represent env (.datatype dk n) (.con c (some v)) =
      represent env (.datatype dk n) (.con c' (some w))) :
    c = c' ∧ represent env a v = represent env a w := by
  obtain ⟨name, constrs, hd, hm⟩ := hwf.declared hc
  have ha : getPcArgTyp env (.var c) = some a := by simp [getPcArgTyp, hc]
  cases dk with
  | enum => exact absurd (hwf.fits hd hk _ hm) (by simp)
  | option =>
    cases hwf.one_each hd (hwf.fits hd hk) hc hc' rfl
    by_cases hu : isUnboxable a
    · exact ⟨rfl, by simpa [represent, ha, hu] using hr⟩
    · exact ⟨rfl, by simpa [represent, ha, hu] using hr⟩
  | default =>
    cases hx : exactListConstructor env (.var c) with
    | some r =>
      obtain ⟨_, _, hd', hfit⟩ := (listDecl_of_exact hc hx).fits
      cases hwf.one_each hd' hfit hc hc' rfl
      exact ⟨rfl, by simpa [represent, ha, hx] using hr⟩
    | none =>
      have hx' := exactListConstructor_none hwf hc hc' hx
      have ha' : getPcArgTyp env (.var c') = some a' := by simp [getPcArgTyp, hc']
      simp only [represent, ha, ha', hx, hx', CVal.ptr.injEq, CVal.struct.injEq, List.cons.injEq,
        Prod.mk.injEq, CVal.enumerator.injEq, true_and, and_true] at hr
      obtain ⟨rfl, -, hr⟩ := hr
      rw [ha] at ha'
      cases ha'
      exact ⟨rfl, hr⟩

/-- A constructor without an argument is told from one with: where `NULL` stands for
the former, the latter's argument is never null. -/
theorem represent_unlike (hwf : env.WellFormed kinds) (hk : kinds n = some dk)
    (hc : env.constructors c = some (x, none, n)) (hc' : env.constructors c' = some (x', some a, n))
    (h : Denotes env kinds e a v)
    (hn : collapses env kinds (.datatype dk n) (.con c none) = false ∨
      collapses env kinds (.datatype dk n) (.con c' (some v)) = false) :
    represent env (.datatype dk n) (.con c none) ≠
      represent env (.datatype dk n) (.con c' (some v)) := by
  intro hr
  obtain ⟨name, constrs, hd, hm⟩ := hwf.declared hc'
  have ha : getPcArgTyp env (.var c') = some a := by simp [getPcArgTyp, hc']
  cases dk with
  | enum => exact absurd (hwf.fits hd hk _ hm) (by simp)
  | option =>
    by_cases hu : isUnboxable a
    · simp only [represent, ha, hu, if_true] at hr
      have he := represent_null hwf h hu hr.symm
      have hl := emptyList_shaped he
      rcases hn with hn | hn
      · simp only [collapses, hd, Option.any_some, List.any_eq_false, Option.any_eq_true,
          not_exists, not_and] at hn
        exact hn _ hm a rfl hl
      · simp [collapses, ha, he] at hn
    · simp [represent, ha, hu] at hr
  | default =>
    cases hx : exactListConstructor env (.var c) with
    | some r =>
      simp only [represent, hx, ha] at hr
      split at hr <;> cases hr
    | none =>
      have hx' := exactListConstructor_none hwf hc hc' hx
      simp [represent, hx, hx', ha] at hr

mutual

theorem represent_injective (hwf : env.WellFormed kinds) (h : Denotes env kinds e t v)
    (h' : Denotes env kinds e' t w) (hn : collapses env kinds t v = false)
    (hr : represent env t v = represent env t w) : v = w := by
  match h with
  | .prim hp =>
    obtain ⟨q, rfl⟩ := h'.lit_inv hp
    simpa using hr
  | .bool (b := b) =>
    obtain ⟨b', rfl⟩ := h'.bool_inv
    cases b <;> cases b' <;> simp_all
  | .record (i := i) hs hf =>
    obtain ⟨xes', xts', fs', rfl, hs', hf'⟩ := h'.record_inv
    rw [hs] at hs'
    cases hs'
    simp only [collapses, hs, Option.getD_some] at hn
    by_cases hi : i = 0
    · subst hi
      rw [hwf.unit] at hs
      cases hs
      cases hf
      cases hf'
      rfl
    · rw [represent_record hi hs, represent_record hi hs, CVal.struct.injEq] at hr
      rw [representFields_injective hwf hf hf' hn hr]
  | .absent (t := t) =>
    rcases h'.option_inv with rfl | ⟨e₁, v₁, rfl, h₁⟩
    · rfl
    · simp only [collapses] at hn
      by_cases hu : isUnboxable t
      · simp only [represent, hu, if_true] at hr
        rw [emptyList_shaped (represent_null hwf h₁ hu hr.symm)] at hn
        cases hn
      · simp [represent, hu] at hr
  | .present (t := t) (v := v) h₀ =>
    simp only [collapses, Bool.or_eq_false_iff] at hn
    rcases h'.option_inv with rfl | ⟨e₁, v₁, rfl, h₁⟩
    · by_cases hu : isUnboxable t
      · simp only [represent, hu, if_true] at hr
        rw [represent_null hwf h₀ hu hr] at hn
        cases hn.1
      · simp [represent, hu] at hr
    · by_cases hu : isUnboxable t
      · simp only [represent, hu, if_true] at hr
        rw [represent_injective hwf h₀ h₁ hn.2 hr]
      · simp only [represent, hu] at hr
        rw [represent_injective hwf h₀ h₁ hn.2 (by simpa using hr)]
  | .nil | .exactNil _ =>
    rcases h'.list_inv with rfl | ⟨e₁, v₁, rfl, h₁⟩
    · rfl
    · simp [represent] at hr
  | .cons h₀ | .exactCons _ h₀ =>
    rcases h'.list_inv with rfl | ⟨e₁, v₁, rfl, h₁⟩
    · simp [represent] at hr
    · simp only [represent, CVal.ptr.injEq] at hr
      rw [represent_injective hwf h₀ h₁ (by simpa [collapses] using hn) hr]
  | .con (k := dk) (n := n) (c := c) hc hk =>
    obtain ⟨name, constrs, hd, hm⟩ := hwf.declared hc
    obtain ⟨-, ⟨x', c', rfl, hc'⟩ | ⟨x', c', a', e', w', rfl, hc', h₁⟩⟩ := h'.datatype_inv
    · rw [represent_nullary hwf hk hc hc' hr]
    · exact absurd hr (represent_unlike hwf hk hc hc' h₁ (.inl hn))
  | .conArg (a := a) (k := dk) (n := n) (c := c) hc hk h₀ =>
    obtain ⟨-, ⟨x', c', rfl, hc'⟩ | ⟨x', c', a', e', w', rfl, hc', h₁⟩⟩ := h'.datatype_inv
    · exact absurd hr.symm (represent_unlike hwf hk hc' hc h₀ (.inr hn))
    · obtain ⟨rfl, hv⟩ := represent_unary hwf hk hc hc' hr
      rw [hc] at hc'
      cases hc'
      simp only [collapses, getPcArgTyp, hc, Option.bind_some, Bool.or_eq_false_iff] at hn
      rw [represent_injective hwf h₀ h₁ hn.2 hv]

theorem representFields_injective (hwf : env.WellFormed kinds)
    (h : DenotesFields env kinds xes xts fs) (h' : DenotesFields env kinds xes' xts fs')
    (hn : collapsesFields env kinds xts fs = false)
    (hr : representFields env xts fs = representFields env xts fs') : fs = fs' := by
  match h, h' with
  | .nil, .nil => rfl
  | .cons h₀ hs, .cons h₁ hs' =>
    simp only [collapsesFields, Bool.or_eq_false_iff] at hn
    simp only [representFields, List.cons.injEq, Prod.mk.injEq, true_and] at hr
    rw [represent_injective hwf h₀ h₁ hn.1 hr.1, representFields_injective hwf hs hs' hn.2 hr.2]

end

-- ---------------------------------------------------------------------------
-- Two values with one representation
-- ---------------------------------------------------------------------------

theorem listShaped_unboxable (h : listShaped env kinds t) : isUnboxable t := by
  unfold listShaped at h
  split at h
  · rfl
  · cases h

theorem emptyList_unboxable (h : emptyList env kinds t v) : isUnboxable t :=
  listShaped_unboxable (emptyList_shaped h)

/-- The empty value of a list-shaped datatype is `NULL`. -/
theorem listShaped_empty (hwf : env.WellFormed kinds) (h : listShaped env kinds t) :
    ∃ e c, Denotes env kinds e t (.con c none) ∧ represent env t (.con c none) = .null := by
  obtain ⟨n, i, rfl, hk, hl⟩ := (listShaped_iff hwf).mp h
  obtain ⟨name, c, d, hd, hi⟩ := id hl
  have hc : env.constructors c = some ("Nil", none, n) := by
    rcases hd with hd | hd <;> exact hwf.listed hd (by simp)
  exact ⟨_, c, .con hc hk, by simp [represent, hl.exact hwf hc]⟩

theorem emptyList_null (hwf : env.WellFormed kinds) (h : Denotes env kinds e t v)
    (he : emptyList env kinds t v) : represent env t v = .null := by
  unfold emptyList at he
  split at he
  case h_2 => cases he
  case h_1 c =>
    obtain ⟨n, i, rfl, hk, hl⟩ := (listShaped_iff hwf).mp he
    obtain ⟨-, ⟨x, c', hv, hc⟩ | ⟨x, c', a, e', v', hv, -⟩⟩ := h.datatype_inv
    · cases hv
      simp [represent, hl.exact hwf hc]
    · cases hv

/-- A nullable datatype has a constructor of each sort. -/
theorem CjrEnv.WellFormed.option_both (hwf : env.WellFormed kinds) (hk : kinds n = some .option)
    (hd : env.datatypes n = some (name, constrs)) :
    ∃ x c y d t, env.constructors c = some (x, none, n) ∧ env.constructors d = some (y, some t, n) ∧
      ∀ k ∈ constrs, k.2.2 = none ∨ k.2.2 = some t := by
  obtain ⟨x, c, y, d, t, rfl | rfl⟩ := hwf.fits hd hk <;>
    exact ⟨x, c, y, d, t, hwf.listed hd (by simp), hwf.listed hd (by simp), by simp⟩

mutual

theorem Denotes.twin (hwf : env.WellFormed kinds) (h : Denotes env kinds e t v)
    (hn : collapses env kinds t v) :
    ∃ e' w, Denotes env kinds e' t w ∧ w ≠ v ∧ represent env t w = represent env t v := by
  match h with
  | .prim hp => obtain ⟨x, rfl⟩ := hp.ffi; simp [collapses] at hn
  | .bool => simp [collapses] at hn
  | .record (i := i) hs hf =>
    simp only [collapses, hs, Option.getD_some] at hn
    obtain ⟨xes', fs', hf', hne, hr⟩ := hf.twin hwf hn
    refine ⟨_, _, .record hs hf', by simpa using hne, ?_⟩
    by_cases hi : i = 0
    · subst hi
      simp [represent]
    · rw [represent_record hi hs, represent_record hi hs, hr]
  | .absent (t := t) =>
    simp only [collapses] at hn
    obtain ⟨e₁, c, h₁, hr⟩ := listShaped_empty hwf hn
    exact ⟨_, _, .present h₁, by simp, by simp [represent, listShaped_unboxable hn, hr]⟩
  | .present (t := t) (v := v) h₀ =>
    simp only [collapses, Bool.or_eq_true] at hn
    rcases hn with hn | hn
    · have hu := emptyList_unboxable hn
      exact ⟨_, _, .absent, by simp, by simp [represent, hu, emptyList_null hwf h₀ hn]⟩
    · obtain ⟨e₁, w, h₁, hne, hr⟩ := h₀.twin hwf hn
      exact ⟨_, _, .present h₁, by simpa using hne, by simp [represent, hr]⟩
  | .nil | .exactNil _ => simp [collapses] at hn
  | .cons h₀ | .exactCons _ h₀ =>
    obtain ⟨e₁, w, h₁, hne, hr⟩ := h₀.twin hwf (by simpa [collapses] using hn)
    exact ⟨_, _, .cons h₁, by simpa using hne, by simp [represent, hr]⟩
  | .con (k := dk) (n := n) (c := c) hc hk =>
    obtain ⟨name, constrs, hd, hm⟩ := hwf.declared hc
    cases dk with
    | enum | default => simp [collapses] at hn
    | option =>
      obtain ⟨x, c₀, y, d, t, hc₀, hcd, hall⟩ := hwf.option_both hk hd
      simp only [collapses, hd, Option.any_some, List.any_eq_true, Option.any_eq_true] at hn
      obtain ⟨k, hk', a, ha, hl⟩ := hn
      cases (hall k hk').resolve_left (by simp [ha]) ▸ ha
      obtain ⟨e₁, c₁, h₁, hr⟩ := listShaped_empty hwf hl
      exact ⟨_, _, .conArg hcd hk h₁, by simp,
        by simp [represent, getPcArgTyp, hcd, listShaped_unboxable hl, hr]⟩
  | .conArg (a := a) (v := v) (k := dk) (n := n) (c := c) hc hk h₀ =>
    obtain ⟨name, constrs, hd, hm⟩ := hwf.declared hc
    have ha : getPcArgTyp env (.var c) = some a := by simp [getPcArgTyp, hc]
    have step (hn : collapses env kinds a v) : ∃ e' w, Denotes env kinds e' (.datatype dk n) w ∧
        w ≠ .con c (some v) ∧
        represent env (.datatype dk n) w = represent env (.datatype dk n) (.con c (some v)) := by
      obtain ⟨e₁, w, h₁, hne, hr⟩ := h₀.twin hwf hn
      refine ⟨_, _, .conArg hc hk h₁, by simpa using hne, ?_⟩
      cases dk <;> simp [represent, ha, hr]
    cases dk with
    | enum => exact absurd (hwf.fits hd hk _ hm) (by simp)
    | default => exact step (by simpa [collapses, ha] using hn)
    | option =>
      simp only [collapses, ha, decide_true, Bool.true_and, Bool.or_eq_true] at hn
      rcases hn with hn | hn
      · have hu := emptyList_unboxable hn
        obtain ⟨x, c₀, y, d, t, hc₀, hcd, hall⟩ := hwf.option_both hk hd
        exact ⟨_, _, .con hc₀ hk, by simp,
          by simp [represent, ha, hu, emptyList_null hwf h₀ hn]⟩
      · exact step hn

theorem DenotesFields.twin (hwf : env.WellFormed kinds) (h : DenotesFields env kinds xes xts fs)
    (hn : collapsesFields env kinds xts fs) :
    ∃ xes' fs', DenotesFields env kinds xes' xts fs' ∧ fs' ≠ fs ∧
      representFields env xts fs' = representFields env xts fs := by
  match h with
  | .nil => simp [collapsesFields] at hn
  | .cons h₀ hs =>
    simp only [collapsesFields, Bool.or_eq_true] at hn
    rcases hn with hn | hn
    · obtain ⟨e₁, w, h₁, hne, hr⟩ := h₀.twin hwf hn
      exact ⟨_, _, .cons h₁ hs, by simpa using hne, by simp [representFields, hr]⟩
    · obtain ⟨xes', fs', hs', hne, hr⟩ := hs.twin hwf hn
      exact ⟨_, _, .cons h₀ hs', by simpa using hne, by simp [representFields, hr]⟩

end
end UrWeb.Cjr
