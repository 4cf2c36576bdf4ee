import UrWeb.Sql.PredicateText

/-!
# Where predicates are split

An operator of the predicate's own level is found where it was printed, and an
operator of a higher level is not found. Parentheses around the whole text are
taken away, and no others.
-/

namespace UrWeb.Sql

-- ---------------------------------------------------------------------------
-- Tokens of operators
-- ---------------------------------------------------------------------------

theorem findToks_none (h : ¬ kw <:+: ts) (behindWord : Bool) :
    findToks (startsHere kw) behindWord ts = none := by
  induction ts generalizing behindWord with
  | nil => rfl
  | cons t ts ih =>
    unfold findToks
    split
    · rfl
    · rfl
    · next t' ts' heq =>
      cases heq
      have hstart : startsHere kw behindWord (t :: ts) = false := by
        by_contra hs
        simp only [startsHere, Bool.not_eq_false, Bool.and_eq_true,
          List.isPrefixOf_iff_prefix] at hs
        exact h hs.1.1.isInfix
      rw [hstart, ih fun hi => h (hi.trans (List.suffix_cons t ts).isInfix)]
      simp

theorem findToks_at (hk : k ∉ left) (hc : .comment ∉ left) (hkc : k ≠ .comment)
    (hb : left = [] → behindWord = false) (hl : left.getLast?.any Tok.isWord = false)
    (hr : right.head?.any Tok.isWord = false) :
    findToks (startsHere (k :: kw)) behindWord (left ++ (k :: kw ++ right)) =
      some (left, k :: kw ++ right) := by
  induction left generalizing behindWord with
  | nil =>
    have hstart : startsHere (k :: kw) behindWord (k :: kw ++ right) := by
      simp [startsHere, hb rfl, hr]
    rw [List.nil_append]
    unfold findToks
    split
    · next heq => cases heq
    · next heq => cases heq; exact absurd rfl hkc
    · next heq => rw [← heq, if_pos hstart]
  | cons t left ih =>
    rw [List.mem_cons, not_or] at hk hc
    have hstart : startsHere (k :: kw) behindWord (t :: left ++ (k :: kw ++ right)) = false := by
      simp [startsHere, hk.1]
    have hword : left = [] → t.isWord = false := by
      rintro rfl
      simpa using hl
    have hlast : left.getLast?.any Tok.isWord = false := by
      cases left with
      | nil => rfl
      | cons t' left => simpa using hl
    have hrec := ih hk.2 hc.2 hword hlast
    rw [List.cons_append] at hstart ⊢
    unfold findToks
    split
    · next heq => cases heq
    · next heq => cases heq; exact absurd rfl hc.1
    · next heq =>
      cases heq
      rw [hstart, hrec]
      simp

/-- Splitting at an operator between two texts. -/
theorem split_operator (hl : Lexical false ts) (hr : Lexical last ts') (hkw : Keyword (k :: kw))
    (hleft : Blank left) (hright : Blank right)
    (hbefore : left = [] → ts.getLast?.any Tok.isWord = false)
    (hafter : right = [] → ts'.head?.any Tok.isWord = false) (hk : k ∉ ts)
    (hblank : ∀ c, isWhitespace c → k ≠ .ch c)
    (hs : trim s = flat (ts ++ blanks left ++ (k :: kw) ++ blanks right ++ ts')) :
    splitTopLevel s (flat (k :: kw)) = some (flat ts, flat ts') := by
  have hlex := lexical_operator hl hr hkw hleft hright hbefore hafter
  have hfind : findToks (startsHere (k :: kw)) false
      (ts ++ blanks left ++ (k :: kw) ++ blanks right ++ ts') =
      some (ts ++ blanks left, k :: kw ++ (blanks right ++ ts')) := by
    have hassoc : ts ++ blanks left ++ (k :: kw) ++ blanks right ++ ts' =
        ts ++ blanks left ++ (k :: kw ++ (blanks right ++ ts')) := by simp
    rw [hassoc]
    apply findToks_at
    · rw [List.mem_append, not_or]
      refine ⟨hk, ?_⟩
      intro hmem
      obtain ⟨c, hc, rfl⟩ := List.mem_map.mp hmem
      exact hblank c (hleft c hc) rfl
    · simp [hl.closed rfl, comment_not_mem_blanks]
    · rintro rfl
      rcases hkw.2 _ List.mem_cons_self with ⟨w, hw⟩ | ⟨c, hw⟩ <;> cases hw
    · exact fun _ => rfl
    · by_cases hne : left = []
      · simp [hne, blanks, hbefore hne]
      · simpa using not_endsInWord_blanks hne ts
    · cases right with
      | nil => simpa [blanks] using hafter rfl
      | cons c right => rfl
  have htrim : trim (flat (ts ++ blanks left)) = flat ts := by
    have h0 : ∀ c ∈ ([] : Text), isWhitespace c := by simp
    simpa using trim_blanks hl.firm.tight h0 hleft
  have htrim' : trim (flat (blanks right ++ ts')) = flat ts' := by
    have h0 : ∀ c ∈ ([] : Text), isWhitespace c := by simp
    simpa using trim_blanks hr.firm.tight hright h0
  rw [splitTopLevel_flat hkw (List.cons_ne_nil k kw) hlex.tidy hs, hfind]
  simp only [Option.map_some, List.length_cons, htrim]
  rw [← List.length_cons (a := k), List.drop_left, htrim']

theorem split_none (hkw : Keyword kw) (hne : kw ≠ []) (h : Tidy ts) (hs : trim s = flat ts)
    (hi : ¬ kw <:+: ts) : splitTopLevel s (flat kw) = none := by
  rw [splitTopLevel_flat hkw hne h hs, findToks_none hi]
  rfl

theorem not_infix_of_not_mem (h : k ∉ ts) : ¬ (k :: kw) <:+: ts :=
  fun hi => h (hi.subset List.mem_cons_self)

/-- The first token of a two-token operator alone is not the operator. -/
theorem not_infix_of_single (hl : k ∉ left) (hr : k ∉ right) (hhead : right.head? ≠ some k') :
    ¬ [k, k'] <:+: left ++ k :: right := by
  rintro ⟨before, after, heq⟩
  rw [List.append_assoc, List.cons_append] at heq
  rcases List.append_eq_append_iff.mp heq with ⟨mid, rfl, hmid⟩ | ⟨mid, rfl, hmid⟩
  · cases mid with
    | nil =>
      obtain ⟨-, rfl⟩ := List.cons.injEq .. ▸ hmid
      simp at hhead
    | cons t mid =>
      obtain ⟨rfl, -⟩ := List.cons.injEq .. ▸ hmid
      simp at hl
  · cases mid with
    | nil =>
      obtain ⟨-, rfl⟩ := List.cons.injEq .. ▸ hmid
      simp at hhead
    | cons t mid =>
      obtain ⟨-, rfl⟩ := List.cons.injEq .. ▸ hmid
      simp at hr

-- ---------------------------------------------------------------------------
-- Levels
-- ---------------------------------------------------------------------------

theorem lawfulBEq_text : LawfulBEq (List Char) := inferInstance

attribute [local instance] lawfulBEq_text in
/-- The level of the operator that a token belongs to; words and commas of statements are above
all. -/
def Tok.level : Tok → Nat
  | .word w =>
    if w = "OR".toList then 3 else if w = "AND".toList then 2
    else if w ∈ reserved ∧ w ∉ ["COUNT", "CURRENT_TIMESTAMP", "IS", "NULL"].map String.toList then 4
    else 0
  | .ch c => if c = '<' ∨ c = '>' ∨ c = '=' then 1 else if c = ',' then 4 else 0
  | _ => 0

def Pred.level : Pred → Nat
  | .atom _ | .isNull _ _ | .paren _ _ _ => 0
  | .cmp _ _ _ _ _ => 1
  | .and _ _ _ _ => 2
  | .or _ _ _ _ => 3

theorem level_name (h : Name w) : Tok.level (.word w) = 0 := by
  obtain ⟨-, -, hres⟩ := h
  have hor : w ≠ "OR".toList := by
    rintro rfl
    exact hres (by decide)
  have hand : w ≠ "AND".toList := by
    rintro rfl
    exact hres (by decide)
  simp only [Tok.level, hor, hand, hres, if_false, false_and]

theorem level_digits (n : Nat) : Tok.level (.word (Nat.toDigits 10 n)) = 0 := by
  have hdigit : ∀ c ∈ Nat.toDigits 10 n, c.isDigit := fun c hc =>
    Nat.isDigit_of_mem_toDigits (by decide) (by decide) hc
  have hne : ∀ w ∈ reserved, Nat.toDigits 10 n ≠ w := by
    intro w hw heq
    have hall : ∀ w ∈ reserved, ¬ w.all Char.isDigit := by decide
    exact hall w hw (List.all_eq_true.2 (heq ▸ hdigit))
  have hor := hne "OR".toList (by decide)
  have hand := hne "AND".toList (by decide)
  have hres : Nat.toDigits 10 n ∉ reserved := fun h => hne _ h rfl
  simp only [Tok.level, hor, hand, hres, if_false, false_and]

theorem level_blank (h : Blank ws) (ht : t ∈ blanks ws) : t.level = 0 := by
  obtain ⟨c, hc, rfl⟩ := List.mem_map.mp ht
  have hw := h c hc
  have hne : ¬ (c = '<' ∨ c = '>' ∨ c = '=') ∧ c ≠ ',' := by
    constructor
    · rintro (rfl | rfl | rfl) <;> revert hw <;> decide
    · rintro rfl
      revert hw
      decide
  simp [Tok.level, hne.1, hne.2]

theorem level_atom {a : Atom} (h : a.Printed) (ht : t ∈ a.toks) : t.level = 0 := by
  cases a with
  | field t f =>
    simp only [Atom.toks, List.mem_cons, List.not_mem_nil, or_false] at ht
    rcases ht with rfl | rfl | rfl
    · exact level_name h.1
    · decide
    · exact level_name h.2
  | dynamicField t c =>
    simp only [Atom.toks, List.mem_cons, List.not_mem_nil, or_false] at ht
    rcases ht with rfl | rfl | rfl
    · exact level_name h
    · decide
    · rfl
  | bare f =>
    cases List.mem_singleton.mp ht
    exact level_name h
  | int n =>
    simp only [Atom.toks, intToks] at ht
    split at ht
    · simp only [List.mem_cons, List.not_mem_nil, or_false] at ht
      rcases ht with rfl | rfl
      · decide
      · exact level_digits _
    · cases List.mem_singleton.mp ht
      exact level_digits _
  | timestamp =>
    cases List.mem_singleton.mp ht
    decide
  | countAll star spaced =>
    cases star <;> cases spaced <;>
    · simp only [Atom.toks, List.mem_cons, List.not_mem_nil, or_false] at ht
      rcases ht with rfl | rfl <;> decide
  | inject e =>
    cases List.mem_singleton.mp ht
    rfl
  | splice e =>
    cases List.mem_singleton.mp ht
    rfl

theorem level_eq_zero_of_isOperand {p : Pred} (h : p.isOperand) : p.level = 0 := by
  cases p <;> first | rfl | cases h

theorem level_le_of_isOr {p : Pred} (h : p.isOr = false) : p.level ≤ 2 := by
  cases p <;> first | (simp [Pred.level]; done) | cases h

/-- The operators of a predicate outside of parentheses are of its level or below. -/
theorem mem_level (p : Pred) (h : p.Printed) (ht : t ∈ p.toks) : t.level ≤ p.level := by
  have hoperator : ∀ {l r kw : List Tok} {left right : Text} {n : Nat}, Blank left → Blank right →
      (∀ t ∈ l, t.level ≤ n) → (∀ t ∈ kw, t.level ≤ n) → (∀ t ∈ r, t.level ≤ n) →
      ∀ t ∈ l ++ blanks left ++ kw ++ blanks right ++ r, t.level ≤ n := by
    intro l r kw left right n hleft hright hl hkw hr t ht
    simp only [List.mem_append] at ht
    rcases ht with (((ht | ht) | ht) | ht) | ht
    · exact hl t ht
    · exact (level_blank hleft ht).le.trans (Nat.zero_le n)
    · exact hkw t ht
    · exact (level_blank hright ht).le.trans (Nat.zero_le n)
    · exact hr t ht
  induction p generalizing t with
  | atom a => exact (level_atom h ht).le
  | isNull p left ih =>
    obtain ⟨hp, hop, hleft, -⟩ := h
    simp only [Pred.toks, List.mem_append] at ht
    rcases ht with (ht | ht) | ht
    · exact (ih hp ht).trans (level_eq_zero_of_isOperand hop).le
    · exact (level_blank hleft ht).le
    · have hwords : ∀ t ∈ isNullToks, t.level ≤ 0 := by decide
      exact hwords t ht
  | cmp op p left right q ihp ihq =>
    obtain ⟨hp, hq, hop, hoq, hleft, hright⟩ := h
    refine hoperator hleft hright ?_ ?_ ?_ t ht
    · exact fun t ht => ((ihp hp ht).trans (level_eq_zero_of_isOperand hop).le).trans (Nat.zero_le 1)
    · have hops : ∀ op : CmpOp, ∀ t ∈ op.toks, Tok.level t ≤ 1 := by
        intro op
        cases op <;> decide
      exact hops op
    · exact fun t ht => ((ihq hq ht).trans (level_eq_zero_of_isOperand hoq).le).trans (Nat.zero_le 1)
  | and p left right q ihp ihq =>
    obtain ⟨hp, hq, hop, hoq, hleft, hright, -⟩ := h
    refine hoperator hleft hright ?_ ?_ ?_ t ht
    · exact fun t ht => (ihp hp ht).trans (level_le_of_isOr hop)
    · exact (by decide : ∀ t ∈ andToks, Tok.level t ≤ 2)
    · exact fun t ht => (ihq hq ht).trans (level_le_of_isOr hoq)
  | or p left right q ihp ihq =>
    obtain ⟨hp, hq, hleft, hright, -⟩ := h
    have hmax : ∀ p : Pred, p.level ≤ 3 := by
      intro p
      cases p <;> simp [Pred.level]
    refine hoperator hleft hright ?_ ?_ ?_ t ht
    · exact fun t ht => (ihp hp ht).trans (hmax p)
    · exact (by decide : ∀ t ∈ orToks, Tok.level t ≤ 3)
    · exact fun t ht => (ihq hq ht).trans (hmax q)
  | paren left p right ih =>
    cases List.mem_singleton.mp ht
    exact le_rfl

theorem not_mem_of_level {p : Pred} (h : p.Printed) (hlt : p.level < k.level) : k ∉ p.toks :=
  fun hk => absurd (mem_level p h hk) (Nat.not_le.mpr hlt)

end UrWeb.Sql
