import Mathlib.Algebra.Group.Int.Defs
import Mathlib.Algebra.Order.Ring.Int
import UrWeb.Sql.Scan

/-!
# Balanced text

Text whose brackets are closed in the order in which they are opened, outside
of strings and comments. The scanners walk through it inside of brackets
without a hit and come out at the depth at which they went in.
-/

namespace UrWeb.Sql

/-- Neither a bracket nor a quote. -/
def Plain (c : Char) : Prop := c ≠ '(' ∧ c ≠ ')' ∧ c ≠ '\x7b' ∧ c ≠ '\x7d' ∧ c ≠ '\x22'

instance (c : Char) : Decidable (Plain c) := by unfold Plain; infer_instance

inductive Balanced : Text → Prop
  | nil : Balanced []
  | plain (hc : Plain c) (hs : Balanced s) : Balanced (c :: s)
  | string (h : ∀ rest, skipString (body ++ rest) = body.length) (hs : Balanced s) :
      Balanced ('\x22' :: (body ++ s))
  | comment (h : ∀ rest, skipMlComment 1 (body ++ rest) = body.length) (hs : Balanced s) :
      Balanced ('(' :: '*' :: (body ++ s))
  | paren {inner s : Text} (hstar : inner.head? ≠ some '*') (hin : Balanced inner)
      (hs : Balanced s) : Balanced ('(' :: (inner ++ ')' :: s))
  | brace {inner s : Text} (hin : Balanced inner) (hs : Balanced s) :
      Balanced ('\x7b' :: (inner ++ '\x7d' :: s))

theorem Balanced.append (h : Balanced s) (h' : Balanced s') : Balanced (s ++ s') := by
  induction h with
  | nil => exact h'
  | plain hc _ ih => exact .plain hc ih
  | string h _ ih => simpa using Balanced.string h ih
  | comment h _ ih => simpa using Balanced.comment h ih
  | paren hstar hin _ _ ih => simpa using Balanced.paren hstar hin ih
  | brace hin _ _ ih => simpa using Balanced.brace hin ih

-- ---------------------------------------------------------------------------
-- Steps
-- ---------------------------------------------------------------------------

attribute [local simp] advance in
theorem advance_plain (h : Plain c) (cs : Text) : advance (c :: cs) = ⟨1, 0, 0, true⟩ := by
  obtain ⟨h1, h2, h3, h4, h5⟩ := h
  unfold advance
  split <;> simp_all

theorem advance_paren (h : cs.head? ≠ some '*') : advance ('(' :: cs) = ⟨1, 1, 0, false⟩ := by
  unfold advance
  split <;> simp_all

theorem head?_close {inner : Text} (h : inner.head? ≠ some '*') (rest : Text) :
    (inner ++ ')' :: rest).head? ≠ some '*' := by
  cases inner <;> simp_all

theorem advance_pos (c : Char) (cs : Text) : 0 < (advance (c :: cs)).length := by
  unfold advance
  split <;> simp

section
variable {hit : Text → Text → Bool}

/-- The search on the budget that it needs. -/
def search (hit : Text → Text → Bool) (before rest : Text) (p b : Int) : Option (Text × Text) :=
  findTopLevel hit rest.length before rest p b

theorem findTopLevel_budget (h : rest.length ≤ budget) (before : Text) (p b : Int) :
    findTopLevel hit budget before rest p b = search hit before rest p b := by
  induction hn : rest.length using Nat.strong_induction_on generalizing rest budget before p b with
  | _ n ih =>
    subst hn
    cases rest with
    | nil => cases budget <;> rfl
    | cons c cs =>
      obtain ⟨budget, rfl⟩ : ∃ k, budget = k + 1 :=
        Nat.exists_eq_succ_of_ne_zero (Nat.pos_iff_ne_zero.mp ((Nat.succ_pos _).trans_le h))
      have hpos := advance_pos c cs
      have hlen : ((c :: cs).drop (advance (c :: cs)).length).length < (c :: cs).length := by
        simp only [List.length_drop, List.length_cons]
        omega
      simp only [search, List.length_cons, findTopLevel]
      split
      · rfl
      · refine (ih _ hlen ?_ _ _ _ rfl).trans (ih _ hlen ?_ _ _ _ rfl).symm
        · exact Nat.le_of_lt_succ (hlen.trans_le h)
        · exact Nat.le_of_lt_succ hlen

@[simp] theorem search_nil (before : Text) (p b : Int) : search hit before [] p b = none := rfl

theorem search_cons (before : Text) (c : Char) (cs : Text) (p b : Int) :
    search hit before (c :: cs) p b =
      if (advance (c :: cs)).plain && p = 0 && b = 0 && hit before (c :: cs) then
        some (before.reverse, c :: cs)
      else
        search hit (((c :: cs).take (advance (c :: cs)).length).reverse ++ before)
          ((c :: cs).drop (advance (c :: cs)).length) (p + (advance (c :: cs)).paren)
          (b + (advance (c :: cs)).brace) := by
  have hpos := advance_pos c cs
  rw [search, List.length_cons, findTopLevel]
  split
  · rfl
  · apply findTopLevel_budget
    simp only [List.length_drop, List.length_cons]
    omega

/-- Inside of brackets, and at anything but a plain character, there is no hit. -/
theorem search_skip (before : Text) (c : Char) (cs : Text) (p b : Int)
    (h : ¬ ((advance (c :: cs)).plain ∧ p = 0 ∧ b = 0)) :
    search hit before (c :: cs) p b =
      search hit (((c :: cs).take (advance (c :: cs)).length).reverse ++ before)
        ((c :: cs).drop (advance (c :: cs)).length) (p + (advance (c :: cs)).paren)
        (b + (advance (c :: cs)).brace) := by
  rw [search_cons, if_neg]
  simp only [Bool.and_eq_true, decide_eq_true_eq]
  exact fun hh => h ⟨hh.1.1.1, hh.1.1.2, hh.1.2⟩

theorem search_string (before body rest : Text) (p b : Int)
    (h : ∀ rest, skipString (body ++ rest) = body.length) :
    search hit before ('\x22' :: (body ++ rest)) p b =
      search hit (('\x22' :: body).reverse ++ before) rest p b := by
  have hadv : advance ('\x22' :: (body ++ rest)) = ⟨body.length + 1, 0, 0, false⟩ := by
    simp [advance, h rest]
  rw [search_skip _ _ _ _ _ (by simp [hadv]), hadv]
  simp

theorem search_comment (before body rest : Text) (p b : Int)
    (h : ∀ rest, skipMlComment 1 (body ++ rest) = body.length) :
    search hit before ('(' :: '*' :: (body ++ rest)) p b =
      search hit (('(' :: '*' :: body).reverse ++ before) rest p b := by
  have hadv : advance ('(' :: '*' :: (body ++ rest)) = ⟨body.length + 2, 0, 0, false⟩ := by
    simp [advance, h rest]
  rw [search_skip _ _ _ _ _ (by simp [hadv]), hadv]
  simp

theorem search_open (before rest : Text) (p b : Int) (h : rest.head? ≠ some '*') :
    search hit before ('(' :: rest) p b = search hit ('(' :: before) rest (p + 1) b := by
  rw [search_skip _ _ _ _ _ (by simp [advance_paren h]), advance_paren h]
  simp

theorem search_close (before rest : Text) (p b : Int) :
    search hit before (')' :: rest) p b = search hit (')' :: before) rest (p - 1) b := by
  rw [search_skip _ _ _ _ _ (by simp [advance])]
  simp [advance, sub_eq_add_neg]

theorem search_openBrace (before rest : Text) (p b : Int) :
    search hit before ('\x7b' :: rest) p b = search hit ('\x7b' :: before) rest p (b + 1) := by
  rw [search_skip _ _ _ _ _ (by simp [advance])]
  simp [advance]

theorem search_closeBrace (before rest : Text) (p b : Int) :
    search hit before ('\x7d' :: rest) p b = search hit ('\x7d' :: before) rest p (b - 1) := by
  rw [search_skip _ _ _ _ _ (by simp [advance])]
  simp [advance, sub_eq_add_neg]

/-- Balanced text inside of brackets. -/
theorem search_balanced (h : Balanced s) (before rest : Text) (hp : 0 ≤ p) (hb : 0 ≤ b)
    (hdepth : 0 < p ∨ 0 < b) :
    search hit before (s ++ rest) p b = search hit (s.reverse ++ before) rest p b := by
  induction h generalizing before rest p b with
  | nil => rfl
  | @plain c s hc hs ih =>
    have hskip : ¬ ((advance (c :: (s ++ rest))).plain ∧ p = 0 ∧ b = 0) := by omega
    rw [List.cons_append, search_skip _ _ _ _ _ hskip, advance_plain hc]
    simp only [List.take_succ_cons, List.take_zero, List.reverse_cons, List.reverse_nil,
      List.nil_append, List.singleton_append, List.drop_succ_cons, List.drop_zero, add_zero]
    rw [ih _ _ hp hb hdepth]
    simp
  | string h hs ih =>
    rw [List.cons_append, List.append_assoc, search_string _ _ _ _ _ h, ih _ _ hp hb hdepth]
    simp
  | comment h hs ih =>
    rw [List.cons_append, List.cons_append, List.append_assoc, search_comment _ _ _ _ _ h,
      ih _ _ hp hb hdepth]
    simp
  | @paren inner s hstar hin hs ihin ih =>
    rw [List.cons_append, List.append_assoc, List.cons_append, search_open _ _ _ _ (head?_close hstar _),
      ihin _ _ (by omega) hb (Or.inl (by omega)), search_close, add_sub_cancel_right,
      ih _ _ hp hb hdepth]
    simp
  | @brace inner s hin hs ihin ih =>
    rw [List.cons_append, List.append_assoc, List.cons_append, search_openBrace,
      ihin _ _ hp (by omega) (Or.inr (by omega)), search_closeBrace, add_sub_cancel_right,
      ih _ _ hp hb hdepth]
    simp

end

-- ---------------------------------------------------------------------------
-- Matching parentheses
-- ---------------------------------------------------------------------------

/-- The matching parenthesis on the budget that it needs. -/
def matchClose (depth : Nat) (rest : Text) : Option Nat := matchingRparen rest.length depth rest

theorem matchingRparen_budget (h : rest.length ≤ budget) (depth : Nat) :
    matchingRparen budget depth rest = matchClose depth rest := by
  induction hn : rest.length using Nat.strong_induction_on generalizing rest budget depth with
  | _ n ih =>
    subst hn
    cases rest with
    | nil => cases budget <;> rfl
    | cons c cs =>
      obtain ⟨budget, rfl⟩ : ∃ k, budget = k + 1 :=
        Nat.exists_eq_succ_of_ne_zero (Nat.pos_iff_ne_zero.mp ((Nat.succ_pos _).trans_le h))
      have hpos := advance_pos c cs
      have hlen : ((c :: cs).drop (advance (c :: cs)).length).length < (c :: cs).length := by
        simp only [List.length_drop, List.length_cons]
        omega
      simp only [matchClose, List.length_cons, matchingRparen]
      split
      · rfl
      · refine congrArg _ ((ih _ hlen ?_ _ rfl).trans (ih _ hlen ?_ _ rfl).symm)
        · exact Nat.le_of_lt_succ (hlen.trans_le h)
        · exact Nat.le_of_lt_succ hlen

theorem matchClose_cons (depth : Nat) (c : Char) (cs : Text) :
    matchClose depth (c :: cs) =
      if (advance (c :: cs)).paren = -1 ∧ depth = 1 then some 1
      else (matchClose (if (advance (c :: cs)).paren = 1 then depth + 1
          else if (advance (c :: cs)).paren = -1 then depth - 1 else depth)
        ((c :: cs).drop (advance (c :: cs)).length)).map (· + (advance (c :: cs)).length) := by
  have hpos := advance_pos c cs
  rw [matchClose, List.length_cons, matchingRparen]
  split
  · rfl
  · show Option.map _ (matchingRparen _ _ _) = _
    rw [matchingRparen_budget]
    simp only [List.length_drop, List.length_cons]
    omega

theorem matchClose_close (rest : Text) : matchClose 1 (')' :: rest) = some 1 := by
  rw [matchClose_cons, if_pos]
  simp [advance]

theorem matchClose_skip (h : (advance (c :: cs)).paren = 0) (depth : Nat) :
    matchClose depth (c :: cs) = (matchClose depth ((c :: cs).drop (advance (c :: cs)).length)).map
      (· + (advance (c :: cs)).length) := by
  rw [matchClose_cons, h]
  simp

theorem matchClose_balanced (h : Balanced s) (depth : Nat) (rest : Text) (hd : 0 < depth) :
    matchClose depth (s ++ rest) = (matchClose depth rest).map (· + s.length) := by
  induction h generalizing depth rest with
  | nil => simp
  | @plain c s hc hs ih =>
    rw [List.cons_append, matchClose_skip (by rw [advance_plain hc]), advance_plain hc]
    simp [ih _ _ hd, Function.comp_def, Nat.add_assoc]
  | @string body s h hs ih =>
    have hadv : advance ('\x22' :: (body ++ (s ++ rest))) = ⟨body.length + 1, 0, 0, false⟩ := by
      simp [advance, h]
    rw [List.cons_append, List.append_assoc, matchClose_skip (by rw [hadv]), hadv]
    simp [ih _ _ hd, Function.comp_def]
    grind
  | @comment body s h hs ih =>
    have hadv : advance ('(' :: '*' :: (body ++ (s ++ rest))) = ⟨body.length + 2, 0, 0, false⟩ := by
      simp [advance, h]
    rw [List.cons_append, List.cons_append, List.append_assoc, matchClose_skip (by rw [hadv]), hadv]
    simp [ih _ _ hd, Function.comp_def]
    grind
  | @paren inner s hstar hin hs ihin ih =>
    have hadv := advance_paren (head?_close hstar (s ++ rest))
    rw [List.cons_append, List.append_assoc, List.cons_append, matchClose_cons, hadv]
    have hclose : matchClose (depth + 1) (')' :: (s ++ rest)) =
        (matchClose depth (s ++ rest)).map (· + 1) := by
      have hadv' : advance (')' :: (s ++ rest)) = ⟨1, -1, 0, false⟩ := rfl
      rw [matchClose_cons, hadv', if_neg (by omega)]
      simp
    simp [ihin, hclose, ih _ _ hd, Function.comp_def]
    grind
  | @brace inner s hin hs ihin ih =>
    have hopen : advance ('\x7b' :: (inner ++ '\x7d' :: (s ++ rest))) = ⟨1, 0, 1, false⟩ := rfl
    have hclose : advance ('\x7d' :: (s ++ rest)) = ⟨1, 0, -1, false⟩ := rfl
    rw [List.cons_append, List.append_assoc, List.cons_append, matchClose_skip (by rw [hopen]), hopen]
    simp only [List.drop_succ_cons, List.drop_zero]
    rw [ihin _ _ hd, matchClose_skip (by rw [hclose]), hclose]
    simp [ih _ _ hd, Function.comp_def]
    grind

/-- The parenthesis at the start of a balanced group closes at its end. -/
theorem findMatchingRparen_balanced {inner : Text} (h : Balanced inner) (rest : Text) :
    findMatchingRparen ('(' :: (inner ++ ')' :: rest)) = some (inner.length + 2) := by
  have hmatch : matchingRparen (scanBudget ('(' :: (inner ++ ')' :: rest))) 1
      (inner ++ ')' :: rest) = some (inner.length + 1) := by
    rw [matchingRparen_budget, matchClose_balanced h 1 _ Nat.one_pos, matchClose_close]
    · simp [Nat.add_comm]
    · simp only [scanBudget, List.length_cons]
      omega
  rw [findMatchingRparen, List.drop_succ_cons, List.drop_zero, hmatch]
  rfl

end UrWeb.Sql
