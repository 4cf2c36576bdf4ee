import UrWeb.Cjr.Faithful
import UrWeb.Cjr.PatternLiterals

/-!
# The code of a pattern

The condition and the declarations printed for a pattern and a path to a value:
valid C over the declared structs, true just if the value matches, and binding what
it is matched with.
-/

namespace UrWeb.Cjr

-- ---------------------------------------------------------------------------
-- The literals of a condition
-- ---------------------------------------------------------------------------

/-- The literals printed in a condition. -/
def CExp.literals : CExp → List Prim
  | .lit p => [p]
  | .deref e | .arrow e _ | .dot e _ | .alloc _ e => e.literals
  | .eq a b | .ne a b | .and a b => a.literals ++ b.literals
  | _ => []

mutual

def Pat.literals : Pat → List Prim
  | .prim p => [p]
  | .con _ _ (some p) | .some _ p => p.literals
  | .record xps => fieldLiterals xps
  | _ => []

def fieldLiterals : List (String × Pat × Typ) → List Prim
  | [] => []
  | (_, p, _) :: xps => p.literals ++ fieldLiterals xps

end

@[simp] theorem literals_pPatCon (env : CjrEnv) (pc : PatCon) : (pPatCon env pc).literals = [] := by
  unfold pPatCon
  split
  · split <;> rfl
  · split <;> rfl

mutual

/-- The condition prints the literals of the pattern and no others. -/
theorem pPatMatch_literals (env : CjrEnv) (d : CExp) (p : Pat) (hd : d.literals = []) :
    (pPatMatch env d p).literals = p.literals := by
  match p with
  | .var _ _ | .prim _ | .none _ => simp [pPatMatch, CExp.literals, Pat.literals, hd]
  | .record xps => simpa [pPatMatch, Pat.literals] using pPatsMatch_literals env d xps hd
  | .some t p =>
    have h := pPatMatch_literals env (if isUnboxable t then d else .deref d) p
      (by split <;> simpa [CExp.literals])
    simpa [pPatMatch, CExp.literals, Pat.literals, hd] using h
  | .con dk pc none =>
    cases hx : exactListConstructor env pc with
    | some r =>
      rw [pPatMatch_exact hx]
      split <;> simp [CExp.literals, Pat.literals, hd]
    | none => cases dk <;> simp [pPatMatch, hx, CExp.literals, Pat.literals, hd]
  | .con dk pc (some p) =>
    cases hx : exactListConstructor env pc with
    | some r =>
      have h := pPatMatch_literals env (.deref d) p hd
      rw [pPatMatch_exactArg hx, CExp.literals, h]
      split <;> simp [CExp.literals, Pat.literals, hd]
    | none =>
      cases dk with
      | enum =>
        simpa [pPatMatch, hx, CExp.literals, Pat.literals, hd] using
          pPatMatch_literals env d p hd
      | option =>
        have h := pPatMatch_literals env
          (if (getPcArgTyp env pc).any isUnboxable then d else .deref d) p
          (by split <;> simpa [CExp.literals])
        simpa [pPatMatch, hx, CExp.literals, Pat.literals, hd] using h
      | default =>
        simpa [pPatMatch, hx, CExp.literals, Pat.literals, hd] using
          pPatMatch_literals env (.arrow d (conFieldName env pc)) p hd

theorem pPatsMatch_literals (env : CjrEnv) (d : CExp) (xps : List (String × Pat × Typ))
    (hd : d.literals = []) :
    (pPatsMatch env d xps).literals = fieldLiterals xps := by
  match xps with
  | [] => rfl
  | [(x, p, t)] =>
    simpa [pPatsMatch, fieldLiterals] using
      pPatMatch_literals env (.dot d (fieldName x)) p hd
  | (x, p, t) :: xp :: xps =>
    have h₁ := pPatMatch_literals env (.dot d (fieldName x)) p hd
    have h₂ := pPatsMatch_literals env d (xp :: xps) hd
    rw [pPatsMatch, CExp.literals, h₁, h₂]
    · rfl
    · exact List.cons_ne_nil xp xps

end

-- ---------------------------------------------------------------------------
-- Correct code
-- ---------------------------------------------------------------------------

section
variable (env : CjrEnv) (kinds : Nat → Option DatatypeKind) (display : UInt64 → List Char)

/-- The path `d` leads to the C value of `v` and of no other value. The condition and
the declarations read declared members of the structs and hold the literals of the
pattern; the condition is true if the pattern matches `v`, and false if not; and if it is
true each variable gets the C value of its component, which is reached through members
that are there and pointers that are not null. -/
structure PatternCode (σ : String → Option CVal) (d : CExp) (t : Typ) (v : Value) (p : Pat) :
    Prop where
  declared : env.Declares kinds
  alone : ∀ {e w}, Denotes env kinds e t w → represent env t w = represent env t v → w = v
  testDeclared : (pPatMatch env d p).Declared
  testLiterals : ∀ l ∈ (pPatMatch env d p).literals, LiteralRead display l
  bindDeclared : ∀ k, ∀ b ∈ pPatBind env k d p, b.init.Declared
  test : (pPatMatch env d p).eval env.layout σ = some (.ofBool (matchPat p v).isSome)
  bind : ∀ {bs}, matchPat p v = some bs → ∀ k,
    List.Forall₂ (Binds env kinds σ) (pPatBind env k d p) bs

end

variable {env : CjrEnv} {kinds : Nat → Option DatatypeKind} {display : UInt64 → List Char}

theorem PatternCode.plain (hwf : env.WellFormed kinds) (h : Denotes env kinds e t v)
    (hc : PatternCode env kinds display σ d t v p) : collapses env kinds t v = false := by
  rw [Bool.eq_false_iff]
  intro hn
  obtain ⟨e', w, h', hne, hr⟩ := h.twin hwf hn
  exact hne (hc.alone h' hr)

/-- Values of the type `{Name : string, Size : option int}`. -/
def sized : CjrEnv where
  datatypes _ := none
  constructors _ := none
  structs i :=
    if i = 0 then some []
    else if i = 1 then
      some [("Name", .ffi "Basis" "string"), ("Size", .option (.ffi "Basis" "int"))]
    else none

theorem sized_wellFormed : sized.WellFormed fun _ => none where
  declared h := nomatch h
  listed h := nomatch h
  fits h := nomatch h
  unit := rfl

theorem sized_namesApart : NamesApart sized fun _ => none where
  fields {i xts} h := by
    simp only [sized] at h
    split at h
    · cases h
      exact .nil
    · simp only [Option.ite_none_right_eq_some, Option.some.injEq] at h
      obtain ⟨-, rfl⟩ := h
      exact List.pairwise_pair.mpr (by decide)
  constrs h := nomatch h

end UrWeb.Cjr
