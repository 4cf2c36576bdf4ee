import Mathlib.Data.List.Find
import Mathlib.Data.List.Infix

/-!
# Rewriting a text

A text is read from the left. Where one of a list of patterns begins, the first
such one is replaced and reading goes on behind it.
-/

namespace Text

/-- The first pattern that begins a text, with what replaces it. -/
def firstMatch (rules : List (List Char × List Char)) (s : List Char) :
    Option (List Char × List Char) :=
  rules.find? fun r => r.1.isPrefixOf s

/-- The rewriting of a text whose first `k` characters are replaced already. -/
def rewriteFrom (rules : List (List Char × List Char)) : Nat → List Char → List Char
  | _, [] => []
  | k + 1, _ :: s => rewriteFrom rules k s
  | 0, c :: s =>
    match firstMatch rules (c :: s) with
    | some r => r.2 ++ rewriteFrom rules (r.1.length - 1) s
    | none => c :: rewriteFrom rules 0 s

def rewrite (rules : List (List Char × List Char)) (s : List Char) : List Char :=
  rewriteFrom rules 0 s

/-- `str::replace`. -/
def replace (pat rep s : List Char) : List Char := rewrite [(pat, rep)] s

-- ---------------------------------------------------------------------------
-- Laws
-- ---------------------------------------------------------------------------

variable {rules : List (List Char × List Char)}

theorem firstMatch_some (h : firstMatch rules s = some r) : r ∈ rules ∧ r.1 <+: s := by
  unfold firstMatch at h
  have hp : r.1.isPrefixOf s = true := by simpa using List.find?_some h
  exact ⟨List.mem_of_find?_eq_some h, List.isPrefixOf_iff_prefix.1 hp⟩

theorem firstMatch_eq_none : firstMatch rules s = none ↔ ∀ r ∈ rules, ¬r.1 <+: s := by
  simp [firstMatch]

/-- Which pattern begins a text depends on which patterns do. -/
theorem firstMatch_congr (h : ∀ r ∈ rules, (r.1 <+: s ↔ r.1 <+: t)) :
    firstMatch rules s = firstMatch rules t := by
  refine List.find?_congr fun r hr => ?_
  rw [Bool.eq_iff_iff, List.isPrefixOf_iff_prefix, List.isPrefixOf_iff_prefix, h r hr]

theorem rewriteFrom_append (s : List Char) :
    rewriteFrom rules a.length (a ++ s) = rewrite rules s := by
  induction a with
  | nil => rfl
  | cons c a ih => exact ih

@[simp] theorem rewrite_nil : rewrite rules [] = [] := rfl

theorem rewrite_none (h : firstMatch rules (c :: s) = none) :
    rewrite rules (c :: s) = c :: rewrite rules s := by
  simp only [rewrite, rewriteFrom, h]

theorem rewrite_some (h : firstMatch rules (r.1 ++ s) = some r) (hne : r.1 ≠ []) :
    rewrite rules (r.1 ++ s) = r.2 ++ rewrite rules s := by
  obtain ⟨pat, rep⟩ := r
  obtain ⟨c, a, rfl⟩ := List.exists_cons_of_ne_nil hne
  simp only [rewrite, List.cons_append, rewriteFrom] at h ⊢
  simp only [h, List.length_cons, Nat.add_sub_cancel, rewriteFrom_append]
  rfl

/-- The way a text is rewritten: nothing is left, a pattern begins it, or none does. -/
theorem rewrite_induct (hne : ∀ r ∈ rules, r.1 ≠ []) {motive : List Char → Prop}
    (nil : motive [])
    (some : ∀ r s, r ∈ rules → firstMatch rules (r.1 ++ s) = some r → motive s → motive (r.1 ++ s))
    (none : ∀ c s, firstMatch rules (c :: s) = none → motive s → motive (c :: s))
    (s : List Char) : motive s := by
  induction h : s.length using Nat.strong_induction_on generalizing s with
  | _ n ih =>
    cases s with
    | nil => exact nil
    | cons c s =>
      subst h
      cases hm : firstMatch rules (c :: s) with
      | none => exact none c s hm (ih _ (Nat.lt_succ_self _) s rfl)
      | some r =>
        obtain ⟨hr, t, ht⟩ := firstMatch_some hm
        rw [← ht] at hm ⊢
        refine some r t hr hm (ih t.length ?_ t rfl)
        have hlen := congrArg List.length ht
        have hpos := List.length_pos_iff.2 (hne r hr)
        rw [List.length_append] at hlen
        omega

/-- Characters that no pattern and no replacement has stay as they are. -/
theorem count_rewrite (hne : ∀ r ∈ rules, r.1 ≠ []) (hq : ∀ r ∈ rules, q ∉ r.1 ∧ q ∉ r.2)
    (s : List Char) : (rewrite rules s).count q = s.count q := by
  induction s using rewrite_induct hne with
  | nil => rfl
  | some r s hr hm ih =>
    rw [rewrite_some hm (hne r hr), List.count_append, List.count_append, ih,
      List.count_eq_zero.2 (hq r hr).1, List.count_eq_zero.2 (hq r hr).2]
  | none c s hm ih => rw [rewrite_none hm, List.count_cons, List.count_cons, ih]

theorem length_rewrite_le (hne : ∀ r ∈ rules, r.1 ≠ [])
    (hlen : ∀ r ∈ rules, r.2.length < r.1.length) (s : List Char) :
    (rewrite rules s).length ≤ s.length := by
  induction s using rewrite_induct hne with
  | nil => exact Nat.le_refl _
  | some r s hr hm ih =>
    have hr' := hlen r hr
    rw [rewrite_some hm (hne r hr), List.length_append, List.length_append]
    omega
  | none c s hm ih => simpa [rewrite_none hm] using ih

theorem le_length_rewrite (hne : ∀ r ∈ rules, r.1 ≠ [])
    (hlen : ∀ r ∈ rules, r.1.length < r.2.length) (s : List Char) :
    s.length ≤ (rewrite rules s).length := by
  induction s using rewrite_induct hne with
  | nil => exact Nat.le_refl _
  | some r s hr hm ih =>
    have hr' := hlen r hr
    rw [rewrite_some hm (hne r hr), List.length_append, List.length_append]
    omega
  | none c s hm ih => simpa [rewrite_none hm] using ih

/-- Rules that shorten keep a text that does not become shorter. -/
theorem rewrite_eq_self_of_length (hne : ∀ r ∈ rules, r.1 ≠ [])
    (hlen : ∀ r ∈ rules, r.2.length < r.1.length) (h : s.length ≤ (rewrite rules s).length) :
    rewrite rules s = s := by
  induction s using rewrite_induct hne with
  | nil => rfl
  | some r s hr hm ih =>
    have h1 := hlen r hr
    have h2 := length_rewrite_le hne hlen s
    rw [rewrite_some hm (hne r hr), List.length_append, List.length_append] at h
    omega
  | none c s hm ih =>
    rw [rewrite_none hm, ih (by simpa [rewrite_none hm] using h)]

/-- No pattern occurs in a text. -/
def Unmatched (rules : List (List Char × List Char)) (s : List Char) : Prop :=
  ∀ r ∈ rules, ¬r.1 <:+: s

theorem rewrite_of_unmatched (h : Unmatched rules s) : rewrite rules s = s := by
  induction s with
  | nil => rfl
  | cons c s ih =>
    have hm : firstMatch rules (c :: s) = none :=
      firstMatch_eq_none.2 fun r hr hp => h r hr hp.isInfix
    rw [rewrite_none hm, ih fun r hr hi => h r hr (List.infix_cons hi)]

theorem Unmatched.cons (hm : firstMatch rules (c :: s) = none) (h : Unmatched rules s) :
    Unmatched rules (c :: s) := by
  intro r hr hi
  rcases List.infix_cons_iff.1 hi with hp | hi
  · exact firstMatch_eq_none.1 hm r hr hp
  · exact h r hr hi

theorem unmatched_nil (hne : ∀ r ∈ rules, r.1 ≠ []) : Unmatched rules [] :=
  fun r hr hi => hne r hr (List.infix_nil.1 hi)

/-- Rules that all shorten, or all lengthen, keep a text only if no pattern occurs in it. -/
theorem rewrite_eq_self_iff (hne : ∀ r ∈ rules, r.1 ≠ [])
    (hlen : (∀ r ∈ rules, r.2.length < r.1.length) ∨ ∀ r ∈ rules, r.1.length < r.2.length) :
    rewrite rules s = s ↔ Unmatched rules s := by
  refine ⟨fun h => ?_, rewrite_of_unmatched⟩
  induction s using rewrite_induct hne with
  | nil => exact unmatched_nil hne
  | some r s hr hm ih =>
    have heq := congrArg List.length h
    rw [rewrite_some hm (hne r hr), List.length_append, List.length_append] at heq
    rcases hlen with hlen | hlen
    · have h1 := hlen r hr
      have h2 := length_rewrite_le hne hlen s
      omega
    · have h1 := hlen r hr
      have h2 := le_length_rewrite hne hlen s
      omega
  | none c s hm ih =>
    rw [rewrite_none hm] at h
    exact (ih (List.cons.inj h).2).cons hm

end Text
