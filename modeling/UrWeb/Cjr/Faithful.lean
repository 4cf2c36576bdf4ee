import UrWeb.Cjr.Dissection

/-!
# Data survives the way through C

What is built for a value is built for no other value of its type, and the
test and the declarations printed for a pattern say of it what the pattern
says of the value.
-/

namespace UrWeb.Cjr

/-- The variables in scope of a `case`: the value under inspection. -/
def discIs (c : CVal) : String → Option CVal := fun x => if x = "disc" then some c else none

variable (env : CjrEnv) (kinds : Nat → Option DatatypeKind)

/-- The C value stands for the source value, and the code of the pattern treats it so. -/
structure Faithful (t : Typ) (v : Value) (p : Pat) (c : CVal) : Prop where
  declared : env.Declares kinds
  built : ∀ {e}, Denotes env kinds e t v → env.built e = some c
  distinct : ∀ {e w}, Denotes env kinds e t w → env.built e = some c → w = v
  testDeclared : (pPatMatch env (.name "disc") p).Declared
  bindDeclared : ∀ k, ∀ b ∈ pPatBind env k (.name "disc") p, b.init.Declared
  test : (pPatMatch env (.name "disc") p).eval env.layout (discIs c) =
    some (.ofBool (matchPat p v).isSome)
  bind : ∀ {bs}, matchPat p v = some bs → ∀ k, List.Forall₂
    (fun b tv => b.t = tv.1 ∧ ∃ e c', Denotes env kinds e tv.1 tv.2 ∧ env.built e = some c' ∧
      b.init.eval env.layout (discIs c) = some c')
    (pPatBind env k (.name "disc") p) bs

/-- No two fields of a record, and no two constructors with an argument of a tagged
datatype, are written the same in C. -/
structure NamesApart : Prop where
  fields : ∀ {i xts}, env.structs i = some xts → xts.Pairwise fun a b => ident a.1 ≠ ident b.1
  constrs : ∀ {n name constrs}, env.datatypes n = some (name, constrs) →
    kinds n = some .default → constrs.Pairwise fun a b =>
      a.2.2.isSome → b.2.2.isSome → ident a.1 ≠ ident b.1

variable {env kinds}

theorem structMembers_nodup (xts : List (String × Typ)) :
    (structMembers xts).Nodup ↔ xts.Pairwise fun a b => ident a.1 ≠ ident b.1 := by
  simp [structMembers, List.Nodup, List.pairwise_map, fieldName]

theorem unionMembers_nodup (constrs : List Constr) :
    (unionMembers constrs).Nodup ↔ constrs.Pairwise fun a b =>
      a.2.2.isSome → b.2.2.isSome → ident a.1 ≠ ident b.1 := by
  simp [unionMembers, List.Nodup, List.pairwise_map, List.pairwise_filter]

theorem declares_iff : env.Declares kinds ↔ NamesApart env kinds := by
  constructor
  · rintro ⟨hs, hu⟩
    exact ⟨fun h => (structMembers_nodup _).mp (hs h), fun h hk => (unionMembers_nodup _).mp (hu h hk)⟩
  · rintro ⟨hs, hu⟩
    exact ⟨fun h => (structMembers_nodup _).mpr (hs h), fun h hk => (unionMembers_nodup _).mpr (hu h hk)⟩

theorem Faithful.plain (hwf : env.WellFormed kinds) (h : Denotes env kinds e t v)
    (hf : Faithful env kinds t v p c) : collapses env kinds t v = false := by
  rw [Bool.eq_false_iff]
  intro hn
  obtain ⟨e', w, h', hne, hr⟩ := h.twin hwf hn
  have hv := hf.built h
  rw [built_represent hwf h] at hv
  exact hne (hf.distinct h' (by rw [built_represent hwf h', hr, hv]))

/-- `datatype t = A of option int | B | C`. -/
def threeWay : CjrEnv where
  datatypes n :=
    if n = 1 then
      some ("t", [("A", 2, some (.option (.ffi "Basis" "int"))), ("B", 3, none), ("C", 4, none)])
    else none
  constructors c :=
    if c = 2 then some ("A", some (.option (.ffi "Basis" "int")), 1)
    else if c = 3 then some ("B", none, 1)
    else if c = 4 then some ("C", none, 1)
    else none
  structs i := if i = 0 then some [] else none

def threeWayKinds (n : Nat) : Option DatatypeKind := if n = 1 then some .default else none

theorem threeWay_wellFormed : threeWay.WellFormed threeWayKinds where
  declared {c x a n} h := by
    simp only [threeWay] at h
    split at h
    · cases h; exact ⟨_, _, rfl, by simp_all⟩
    · split at h
      · cases h; exact ⟨_, _, rfl, by simp_all⟩
      · split at h
        · cases h; exact ⟨_, _, rfl, by simp_all⟩
        · cases h
  listed {n name constrs x c a} h hm := by
    simp only [threeWay] at h
    split at h
    · cases h
      simp only [List.mem_cons, List.not_mem_nil, or_false] at hm
      rcases hm with hm | hm | hm <;> cases hm <;> simp_all [threeWay]
    · cases h
  fits {n name constrs dk} h hk := by
    simp only [threeWayKinds, Option.ite_none_right_eq_some, Option.some.injEq] at hk
    obtain ⟨-, rfl⟩ := hk
    trivial
  unit := rfl

theorem threeWay_namesApart : NamesApart threeWay threeWayKinds where
  fields {i xts} h := by
    simp only [threeWay, Option.ite_none_right_eq_some, Option.some.injEq] at h
    obtain ⟨-, rfl⟩ := h
    exact .nil
  constrs {n name constrs} h _ := by
    simp only [threeWay, Option.ite_none_right_eq_some, Option.some.injEq, Prod.mk.injEq] at h
    obtain ⟨-, -, rfl⟩ := h
    simp

end UrWeb.Cjr
