import UrWeb.Parse.LexicalAnalyzer

/-!
# Blanks and comments

What stands between tokens, stated apart from the scanner: blanks outside markup,
nested comments everywhere, and comments of the markup inside it. The scanner
skips a text of this kind as a whole, and what it skips is of this kind unless a
comment runs to the end of the source.
-/

namespace UrWeb.Parse

/-- `(*` or `*)`. -/
def Delimits (a b : UInt8) : Prop :=
  a = '('.toUInt8 ∧ b = '*'.toUInt8 ∨ a = '*'.toUInt8 ∧ b = ')'.toUInt8

/-- A text that closes `d + 1` open comments with its last two bytes. -/
inductive Closes : Nat → List UInt8 → Prop
  | last : Closes 0 ['*'.toUInt8, ')'.toUInt8]
  | close : Closes d t → Closes (d + 1) ('*'.toUInt8 :: ')'.toUInt8 :: t)
  | opened : Closes (d + 1) t → Closes d ('('.toUInt8 :: '*'.toUInt8 :: t)
  | other : ¬ Delimits a b → Closes d (b :: t) → Closes d (a :: b :: t)

/-- A text up to the first `-->`. -/
inductive XmlCloses : List UInt8 → Prop
  | last : XmlCloses ['-'.toUInt8, '-'.toUInt8, '>'.toUInt8]
  | other : ¬ (a = '-'.toUInt8 ∧ b = '-'.toUInt8 ∧ c = '>'.toUInt8) → XmlCloses (b :: c :: t) →
      XmlCloses (a :: b :: c :: t)

inductive Blank : LexMode → List UInt8 → Prop
  | blank : m ≠ .xml → isBlank b → Blank m [b]
  | comment : Closes 0 c → Blank m ('('.toUInt8 :: '*'.toUInt8 :: c)
  | xmlComment : XmlCloses c → Blank .xml (bytes "<!--" ++ c)

/-- Nothing but blanks and comments. -/
inductive Skipped (m : LexMode) : List UInt8 → Prop
  | nil : Skipped m []
  | cons : Blank m u → Skipped m t → Skipped m (u ++ t)

-- ---------------------------------------------------------------------------
-- The two kinds of comments
-- ---------------------------------------------------------------------------

theorem skipMlComment_close (d : Nat) (bs : List UInt8) :
    skipMlComment (d + 2) ('*'.toUInt8 :: ')'.toUInt8 :: bs) = 2 + skipMlComment (d + 1) bs := by
  rw [skipMlComment, if_neg (by decide), if_pos (by decide), if_neg (by omega)]
  rfl

theorem skipMlComment_opened (d : Nat) (bs : List UInt8) :
    skipMlComment (d + 1) ('('.toUInt8 :: '*'.toUInt8 :: bs) = 2 + skipMlComment (d + 2) bs := by
  rw [skipMlComment, if_pos (by decide)]

theorem skipMlComment_other (h : ¬ Delimits a b) (d : Nat) (bs : List UInt8) :
    skipMlComment d (a :: b :: bs) = 1 + skipMlComment d (b :: bs) := by
  rw [skipMlComment, if_neg fun ho => h (.inl ho), if_neg fun hc => h (.inr hc)]

theorem skipMlComment_closes (h : Closes d c) (t : List UInt8) :
    skipMlComment (d + 1) (c ++ t) = c.length := by
  induction h with
  | last =>
    simp only [List.cons_append, List.nil_append, List.length_cons, List.length_nil]
    rw [skipMlComment, if_neg (by decide), if_pos (by decide), if_pos rfl]
  | close _ ih =>
    rw [List.cons_append, List.cons_append, skipMlComment_close, ih]
    simp only [List.length_cons]
    omega
  | opened _ ih =>
    rw [List.cons_append, List.cons_append, skipMlComment_opened, ih]
    simp only [List.length_cons]
    omega
  | other h _ ih =>
    rw [List.cons_append, List.cons_append, skipMlComment_other h]
    rw [List.cons_append] at ih
    rw [ih]
    simp only [List.length_cons]
    omega

/-- A comment is closed in the text, or it runs to the end. -/
theorem closes_or_end (d : Nat) (bs : List UInt8) :
    (∃ c t, bs = c ++ t ∧ Closes d c) ∨ skipMlComment (d + 1) bs = bs.length := by
  induction hn : bs.length using Nat.strongRecOn generalizing d bs with
  | ind n ih =>
    subst hn
    match bs with
    | [] => exact .inr rfl
    | [_] => exact .inr rfl
    | a :: b :: bs =>
      by_cases hd : Delimits a b
      · obtain ⟨rfl, rfl⟩ | ⟨rfl, rfl⟩ := hd
        · obtain ⟨c, t, rfl, hc⟩ | hc := ih bs.length (by simp only [List.length_cons]; omega) (d + 1) bs rfl
          · exact .inl ⟨_ :: _ :: c, t, rfl, .opened hc⟩
          · refine .inr ?_
            rw [skipMlComment_opened, hc]
            simp only [List.length_cons]
            omega
        · match d with
          | 0 => exact .inl ⟨[_, _], bs, rfl, .last⟩
          | d + 1 =>
            obtain ⟨c, t, rfl, hc⟩ | hc := ih bs.length (by simp only [List.length_cons]; omega) d bs rfl
            · exact .inl ⟨_ :: _ :: c, t, rfl, .close hc⟩
            · refine .inr ?_
              rw [skipMlComment_close, hc]
              simp only [List.length_cons]
              omega
      · obtain ⟨c, t, he, hc⟩ | hc := ih (b :: bs).length (by simp) d (b :: bs) rfl
        · match c, hc, he with
          | [], hc, _ => cases hc
          | c1 :: c, hc, he =>
            obtain ⟨rfl, rfl⟩ := List.cons.inj he
            exact .inl ⟨a :: b :: c, t, rfl, .other hd hc⟩
        · refine .inr ?_
          rw [skipMlComment_other hd, hc]
          simp only [List.length_cons]
          omega

theorem XmlCloses.two (h : XmlCloses c) : ∃ x y t, c = x :: y :: t := by
  cases h with
  | last => exact ⟨_, _, _, rfl⟩
  | other => exact ⟨_, _, _, rfl⟩

theorem skipXmlComment_closes (h : XmlCloses c) (t : List UInt8) :
    skipXmlComment (c ++ t) = c.length := by
  induction h with
  | last =>
    simp only [List.cons_append, List.nil_append, List.length_cons, List.length_nil]
    rw [skipXmlComment, if_pos ⟨rfl, rfl, rfl⟩]
  | other h _ ih =>
    simp only [List.cons_append, List.length_cons] at ih ⊢
    rw [skipXmlComment, if_neg h, ih]
    omega

theorem xmlCloses_or_end (bs : List UInt8) :
    (∃ c t, bs = c ++ t ∧ XmlCloses c) ∨ skipXmlComment bs = bs.length := by
  fun_induction skipXmlComment bs with
  | case1 a b c bs h =>
    obtain ⟨rfl, rfl, rfl⟩ := h
    exact .inl ⟨[_, _, _], bs, rfl, .last⟩
  | case2 a b c bs h ih =>
    obtain ⟨c', t, he, hc⟩ | hc := ih
    · obtain ⟨x, y, c'', rfl⟩ := hc.two
      obtain ⟨rfl, he'⟩ := List.cons.inj he
      obtain ⟨rfl, rfl⟩ := List.cons.inj he'
      exact .inl ⟨_ :: _ :: _ :: c'', t, rfl, .other h hc⟩
    · refine .inr ?_
      rw [hc]
      simp only [List.length_cons]
      omega
  | case3 bs => exact .inr rfl

-- ---------------------------------------------------------------------------
-- One step of skipping
-- ---------------------------------------------------------------------------

theorem Blank.ne_nil (h : Blank m u) : u ≠ [] := by
  cases h <;> simp [bytes]

theorem isBlank_open : isBlank '('.toUInt8 = false := by decide

/-- The scanner skips a blank or a comment whatever follows it. -/
theorem Blank.skip (h : Blank m u) (t : List UInt8) : m.skip (u ++ t) = some u.length := by
  cases h with
  | @blank m b hm hb =>
    have hs : m.skip = skipCode := by cases m <;> first | rfl | exact absurd rfl hm
    rw [hs, List.singleton_append, skipCode, if_pos hb]
    rfl
  | @comment c m hc =>
    have hlen := skipMlComment_closes hc t
    cases m with
    | xml =>
      simp only [LexMode.skip, skipMarkup, List.cons_append, List.head?_cons, List.tail_cons]
      rw [if_pos ⟨trivial, trivial⟩, hlen]
      simp only [List.length_cons]
      exact congrArg some (by omega)
    | regular | xmlTag =>
      simp only [LexMode.skip, skipCode, List.cons_append, List.head?_cons, List.tail_cons]
      rw [isBlank_open, if_neg Bool.false_ne_true, if_pos ⟨trivial, trivial⟩, hlen]
      simp only [List.length_cons]
      exact congrArg some (by omega)
  | xmlComment hc =>
    have hlen := skipXmlComment_closes hc t
    have hb : bytes "<!--" = ['<'.toUInt8, '!'.toUInt8, '-'.toUInt8, '-'.toUInt8] := rfl
    simp only [LexMode.skip, skipMarkup, hb, List.cons_append, List.nil_append, List.length_cons]
    rw [if_neg (fun h => absurd h.1 (by decide)), if_pos (by simp [List.isPrefixOf])]
    simp only [List.drop_succ_cons, List.drop_zero]
    rw [hlen]
    exact congrArg some (by omega)

theorem skipComment_cases (bs : List UInt8) :
    (∃ u t, '('.toUInt8 :: '*'.toUInt8 :: bs = u ++ t ∧ Blank m u ∧
      u.length = 2 + skipMlComment 1 bs) ∨ 2 + skipMlComment 1 bs = bs.length + 2 := by
  obtain ⟨c, t, rfl, hc⟩ | hc := closes_or_end 0 bs
  · refine .inl ⟨_ :: _ :: c, t, rfl, .comment hc, ?_⟩
    rw [skipMlComment_closes hc]
    simp only [List.length_cons]
    omega
  · exact .inr (by rw [Nat.add_comm]; exact congrArg (· + 2) hc)

/-- What is skipped is a blank or a comment, or a comment that is never closed. -/
theorem skip_cases (h : m.skip bs = some n) :
    0 < n ∧ ((∃ u t, bs = u ++ t ∧ Blank m u ∧ u.length = n) ∨ n = bs.length) := by
  have hcomment : ∀ b (bs : List UInt8), b = '('.toUInt8 ∧ bs.head? = some '*'.toUInt8 →
      some (2 + skipMlComment 1 bs.tail) = some n →
      0 < n ∧ ((∃ u t, b :: bs = u ++ t ∧ Blank m u ∧ u.length = n) ∨ n = (b :: bs).length) := by
    intro b bs ⟨hb, hh⟩ hn
    cases hn
    match bs, hh with
    | _ :: bs, rfl =>
      subst hb
      obtain hc | hc := skipComment_cases (m := m) bs
      · exact ⟨by omega, .inl hc⟩
      · exact ⟨by omega, .inr hc⟩
  have hcode : m ≠ .xml → skipCode bs = some n →
      0 < n ∧ ((∃ u t, bs = u ++ t ∧ Blank m u ∧ u.length = n) ∨ n = bs.length) := by
    intro hm hc
    match bs with
    | b :: bs =>
      rw [skipCode] at hc
      split_ifs at hc with hb ho
      · cases hc
        exact ⟨Nat.one_pos, .inl ⟨[b], bs, rfl, .blank hm hb, rfl⟩⟩
      · exact hcomment b bs ho hc
  cases m with
  | regular => exact hcode (by decide) h
  | xmlTag => exact hcode (by decide) h
  | xml =>
    match bs with
    | b :: bs =>
      simp only [LexMode.skip, skipMarkup] at h
      split_ifs at h with ho hx
      · exact hcomment b bs ho h
      · cases h
        obtain ⟨t, ht⟩ := List.isPrefixOf_iff_prefix.1 hx
        have hb : bytes "<!--" = ['<'.toUInt8, '!'.toUInt8, '-'.toUInt8, '-'.toUInt8] := rfl
        have hd : bs.drop 3 = t := by
          rw [hb] at ht
          simp only [List.cons_append, List.nil_append] at ht
          obtain ⟨-, rfl⟩ := List.cons.inj ht
          rfl
        rw [← ht, hd]
        refine ⟨by omega, ?_⟩
        obtain ⟨c, t, rfl, hc⟩ | hc := xmlCloses_or_end t
        · refine .inl ⟨bytes "<!--" ++ c, t, by rw [List.append_assoc], .xmlComment hc, ?_⟩
          rw [List.length_append, skipXmlComment_closes hc]
          rfl
        · refine .inr ?_
          rw [List.length_append, hc]
          rfl

-- ---------------------------------------------------------------------------
-- The loop of one call
-- ---------------------------------------------------------------------------

theorem XmlAwareLexer.rest_advance (s : XmlAwareLexer) (n : Nat) :
    (s.advance n).rest = s.rest.drop n := by
  simp only [advance, rest, List.drop_drop]

theorem XmlAwareLexer.advance_advance (s : XmlAwareLexer) (a b : Nat) :
    (s.advance a).advance b = s.advance (a + b) := by
  simp only [advance, Nat.add_assoc]

variable {F : Type} [F64 F]

/-- A token found by a call stands after blanks and comments. -/
theorem strides_some {s : XmlAwareLexer} {limit : Nat} (hfuel : s.rest.length < limit)
    (h : s.strides m.skip m.token e limit = some (out : LexResult F × XmlAwareLexer)) :
    ∃ gap b bs, s.rest = gap ++ b :: bs ∧ Skipped m gap ∧
      m.skip (b :: bs) = none ∧ out = m.token (s.advance gap.length) b := by
  induction limit generalizing s with
  | zero => omega
  | succ limit ih =>
    rw [XmlAwareLexer.strides] at h
    split at h
    · cases h
    · rename_i b bs hr
      split at h
      · rename_i n hn
        obtain ⟨hpos, hcases⟩ := skip_cases hn
        have hlen : (s.advance n).rest.length < limit := by
          rw [XmlAwareLexer.rest_advance, List.length_drop]
          rw [hr, List.length_cons] at hfuel ⊢
          omega
        obtain ⟨gap, b', bs', hrest, hgap, hskip, hout⟩ := ih hlen h
        rw [XmlAwareLexer.rest_advance] at hrest
        obtain ⟨u, t, hu, hblank, hul⟩ | hend := hcases
        · refine ⟨u ++ gap, b', bs', ?_, .cons hblank hgap, hskip, ?_⟩
          · rw [hu, ← hul, List.drop_left] at hrest
            rw [hu, hrest, List.append_assoc]
          · rw [hout, XmlAwareLexer.advance_advance, List.length_append, hul]
        · rw [hend, List.drop_length] at hrest
          exact absurd hrest.symm (by simp)
      · rename_i hn
        refine ⟨[], b, bs, hr, .nil, hr ▸ hn, ?_⟩
        exact (Option.some.inj h).symm

/-- Blanks and comments are skipped up to the token that follows them. -/
theorem strides_skipped {s : XmlAwareLexer} {limit : Nat} (hgap : Skipped m gap)
    (hr : s.rest = gap ++ b :: bs) (hb : m.skip (b :: bs) = none) (hfuel : gap.length < limit) :
    s.strides m.skip m.token e limit = some (m.token (F := F) (s.advance gap.length) b) := by
  induction hgap generalizing s limit with
  | nil =>
    obtain ⟨limit, rfl⟩ := Nat.exists_eq_add_of_lt hfuel
    rw [List.nil_append] at hr
    simp only [List.length_nil, XmlAwareLexer.strides, hr, hb]
    rfl
  | @cons u t hu ht ih =>
    obtain ⟨limit, rfl⟩ := Nat.exists_eq_add_of_lt hfuel
    rw [List.append_assoc] at hr
    have hskip : m.skip s.rest = some u.length := by rw [hr]; exact hu.skip _
    have hne : u.length ≠ 0 := fun h => hu.ne_nil (List.length_eq_zero_iff.1 h)
    rw [XmlAwareLexer.strides]
    split
    · rename_i hnil
      rw [hr] at hnil
      exact absurd (List.append_eq_nil_iff.1 hnil).1 hu.ne_nil
    · rw [hskip]
      simp only
      rw [ih (s := s.advance u.length) (by rw [XmlAwareLexer.rest_advance, hr, List.drop_left])
        (by rw [List.length_append] at hfuel ⊢; omega), XmlAwareLexer.advance_advance,
        List.length_append]

end UrWeb.Parse
