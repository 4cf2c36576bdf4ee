import UrWeb.Sql.Splitting

/-!
# Parentheses around predicates

Parentheses around the whole text are taken away, and no others: the first
group of a text with more than one token closes before the end.
-/

namespace UrWeb.Sql

theorem trim_length_le (s : Text) : (trim s).length ≤ s.length := by
  have hdrop : ∀ s : Text, (s.dropWhile isWhitespace).length ≤ s.length := fun s =>
    (List.dropWhile_suffix _).length_le
  unfold trim
  rw [List.length_reverse]
  refine (hdrop _).trans ?_
  rw [List.length_reverse]
  exact hdrop s

/-- The rounds do not matter once there are enough of them. -/
theorem trimWrapping_rounds {rounds rounds' : Nat} (h : s.length ≤ rounds)
    (h' : s.length ≤ rounds') : trimWrapping rounds s = trimWrapping rounds' s := by
  have hnil : ∀ rounds, trimWrapping rounds [] = [] := by
    intro rounds
    cases rounds <;> rfl
  induction rounds generalizing s rounds' with
  | zero =>
    cases List.length_eq_zero_iff.mp (Nat.le_zero.mp h)
    rw [hnil, hnil]
  | succ rounds ih =>
    cases rounds' with
    | zero =>
      cases List.length_eq_zero_iff.mp (Nat.le_zero.mp h')
      rw [hnil, hnil]
    | succ rounds' =>
      have hlen := trim_length_le s
      have hinner : (((trim s).drop 1).dropLast).length ≤ s.length - 1 := by
        rw [List.length_dropLast, List.length_drop]
        omega
      simp only [trimWrapping]
      split
      · exact ih (by omega) (by omega)
      · rfl

theorem trimWrappingParens_paren {inner : Text} (hin : Balanced inner)
    (hs : trim s = '(' :: (inner ++ [')'])) :
    trimWrappingParens s = trimWrappingParens inner := by
  have hlen := trim_length_le s
  rw [hs, List.length_cons, List.length_append] at hlen
  obtain ⟨n, hn⟩ : ∃ n, s.length = n + 1 := Nat.exists_eq_succ_of_ne_zero (by omega)
  have hlast : ('(' :: (inner ++ [')'])).getLast? = some ')' := by
    rw [← List.cons_append, List.getLast?_concat]
  rw [trimWrappingParens, hn, trimWrapping, hs, if_pos]
  · rw [List.drop_succ_cons, List.drop_zero, List.dropLast_concat]
    exact trimWrapping_rounds (by omega) le_rfl
  · refine ⟨rfl, hlast, ?_⟩
    rw [findMatchingRparen_balanced hin]
    simp

theorem trimWrappingParens_of_not (h : ¬ ((trim s).head? = some '(' ∧
    findMatchingRparen (trim s) = some (trim s).length)) : trimWrappingParens s = trim s := by
  unfold trimWrappingParens
  cases s.length with
  | zero => rfl
  | succ n =>
    rw [trimWrapping, if_neg]
    exact fun hw => h ⟨hw.1, hw.2.2⟩

theorem SolidEnd.text_ne_nil (h : SolidEnd t) : t.text ≠ [] := by
  obtain ⟨c, hc, -⟩ := h
  intro hnil
  simp [hnil] at hc

/-- A text that is more than a pair of parentheses. -/
theorem trimWrappingParens_flat (hl : Lexical last (t :: ts)) (hne : t ≠ .comment)
    (hone : ts = [] → t.text.head? ≠ some '(') (hs : trim s = flat (t :: ts)) :
    trimWrappingParens s = flat (t :: ts) := by
  rw [← hs]
  apply trimWrappingParens_of_not
  rw [hs]
  rintro ⟨hhead, hclose⟩
  have hok := hl.tidy.1
  cases t with
  | word w =>
    obtain ⟨c, cs, rfl⟩ := List.exists_cons_of_ne_nil hok.1
    have hc := isIdentifierByte_plain (hok.2 c List.mem_cons_self)
    simp only [flat_cons, Tok.text, List.cons_append, List.head?_cons, Option.some.injEq] at hhead
    exact hc.1 hhead
  | ch c =>
    simp only [flat_cons, Tok.text, List.cons_append, List.head?_cons, Option.some.injEq] at hhead
    exact hok.2.1 hhead
  | comment => exact hne rfl
  | group s =>
    cases hok with
    | brace hin => simp [Tok.text] at hhead
    | @paren inner hstar hin =>
      -- the group closes before the end of the text
      have hshort : flat ts = [] := by
        simp only [flat_cons, Tok.text, List.cons_append, List.append_assoc,
          List.nil_append] at hclose
        rw [findMatchingRparen_balanced hin] at hclose
        simp only [Option.some.injEq, List.length_cons, List.length_append] at hclose
        exact List.length_eq_zero_iff.mp (by omega)
      rcases List.eq_nil_or_concat ts with rfl | ⟨ts, t', rfl⟩
      · exact hone rfl rfl
      · obtain ⟨-, t'', ht, hsolid⟩ := hl.firm
        have hlast : t' = t'' := by simpa [List.getLast?_cons] using ht
        rw [List.concat_eq_append, flat_append, List.append_eq_nil_iff] at hshort
        exact hsolid.text_ne_nil (by simpa [hlast] using hshort.2)

-- ---------------------------------------------------------------------------
-- Predicates
-- ---------------------------------------------------------------------------

theorem atom_head (a : Atom) : ∃ t ts, a.toks = t :: ts ∧ t ≠ .comment ∧
    (ts = [] → (∃ w, t = .word w) ∨ t.text.head? = some '\x7b') := by
  cases a with
  | int n =>
    simp only [Atom.toks, intToks]
    split
    · exact ⟨_, _, rfl, by rintro ⟨⟩, by rintro ⟨⟩⟩
    · exact ⟨_, _, rfl, by rintro ⟨⟩, fun _ => .inl ⟨_, rfl⟩⟩
  | countAll star spaced => cases star <;> cases spaced <;> exact ⟨_, _, rfl, by rintro ⟨⟩, by rintro ⟨⟩⟩
  | inject e | splice e => exact ⟨_, _, rfl, by rintro ⟨⟩, fun _ => .inr rfl⟩
  | bare f | timestamp => exact ⟨_, _, rfl, by rintro ⟨⟩, fun _ => .inl ⟨_, rfl⟩⟩
  | field t f | dynamicField t c => exact ⟨_, _, rfl, by rintro ⟨⟩, by rintro ⟨⟩⟩

/-- Only a predicate in parentheses is all in parentheses. -/
theorem pred_head (p : Pred) : ∃ t ts, p.toks = t :: ts ∧ t ≠ .comment ∧
    ((∀ left q right, p ≠ .paren left q right) →
      ts = [] → (∃ w, t = .word w) ∨ t.text.head? = some '\x7b') := by
  have hmore : ∀ {ts' : List Tok} (ts : List Tok) (t : Tok), t ∈ ts' → ts ++ ts' = [] → False := by
    intro ts' ts t ht hnil
    rw [List.append_eq_nil_iff] at hnil
    rw [hnil.2] at ht
    cases ht
  induction p with
  | atom a =>
    obtain ⟨t, ts, h, hne, hone⟩ := atom_head a
    exact ⟨t, ts, h, hne, fun _ => hone⟩
  | paren left p right => exact ⟨_, _, rfl, nofun, fun h => absurd rfl (h left p right)⟩
  | isNull p left ih =>
    obtain ⟨t, ts, h, hne, -⟩ := ih
    simp only [Pred.toks, h, List.cons_append]
    exact ⟨t, _, rfl, hne, fun _ hnil => (hmore _ _ List.mem_cons_self hnil).elim⟩
  | cmp op p left right q ihp ihq =>
    obtain ⟨t, ts, h, hne, -⟩ := ihp
    obtain ⟨t', ts', h', -⟩ := ihq
    simp only [Pred.toks, h, h', List.cons_append]
    exact ⟨t, _, rfl, hne, fun _ hnil => (hmore _ _ List.mem_cons_self hnil).elim⟩
  | and p left right q ihp ihq | or p left right q ihp ihq =>
    obtain ⟨t, ts, h, hne, -⟩ := ihp
    obtain ⟨t', ts', h', -⟩ := ihq
    simp only [Pred.toks, h, h', List.cons_append]
    exact ⟨t, _, rfl, hne, fun _ hnil => (hmore _ _ List.mem_cons_self hnil).elim⟩

theorem trimWrappingParens_pred {p : Pred} (hp : p.Printed) (hr : p.Readable last)
    (hparen : ∀ left q right, p ≠ .paren left q right) (hs : trim s = p.text) :
    trimWrappingParens s = p.text := by
  have hl := pred_lexical p last hp hr
  obtain ⟨t, ts, htoks, hne, hone⟩ := pred_head p
  rw [htoks] at hl
  rw [Pred.text, htoks] at hs ⊢
  refine trimWrappingParens_flat hl hne ?_ hs
  intro hnil hhead
  rcases hone hparen hnil with ⟨w, rfl⟩ | hbrace
  · obtain ⟨c, cs, rfl⟩ := List.exists_cons_of_ne_nil hl.tidy.1.1
    have hc := isIdentifierByte_plain (hl.tidy.1.2 c List.mem_cons_self)
    exact hc.1 (by simpa [Tok.text] using hhead)
  · rw [hbrace] at hhead
    cases hhead

theorem trimWrappingParens_parenPred {p : Pred} (hp : p.Printed) (hr : p.Readable false)
    (hleft : Blank left) (hright : Blank right) (hs : trim s = (Pred.paren left p right).text) :
    trimWrappingParens s = trimWrappingParens (left ++ p.text ++ right) := by
  have hblank : ∀ {ws : Text}, Blank ws → Balanced ws := fun h =>
    balanced_of_plain fun c hc => plain_of_whitespace (h c hc)
  have hl := pred_lexical p false hp hr
  have hin := ((hblank hleft).append (hl.tidy.balanced (hl.closed rfl))).append (hblank hright)
  apply trimWrappingParens_paren hin
  simpa [Pred.text, Pred.toks, Tok.text] using hs

end UrWeb.Sql
