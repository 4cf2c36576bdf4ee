import Mathlib.Data.Bool.AllAny
import UrWeb.Lib.Text
import UrWeb.Sql.Predicates

/-!
# The text of predicates

The tokens of a printed predicate are tidy, its text starts and ends with
characters that are not blank, and the operators it can be split at are those
of its own level.
-/

namespace UrWeb.Sql

-- ---------------------------------------------------------------------------
-- Blanks
-- ---------------------------------------------------------------------------

theorem isWhitespace_range (h : isWhitespace c) : c.toNat ≤ 32 ∨ 133 ≤ c.toNat := by
  simp only [isWhitespace, Bool.or_eq_true, Bool.and_eq_true, decide_eq_true_eq, Char.le_def,
    UInt32.le_iff_toNat_le] at h
  rcases h with (((((((((rfl | h) | rfl) | rfl) | rfl) | h) | rfl) | rfl) | rfl) | rfl) | rfl
  · decide
  · have h' : c.toNat ≤ 13 := h.2
    omega
  · decide
  · decide
  · decide
  · have h' : 0x2000 ≤ c.toNat := h.1
    omega
  all_goals decide

theorem isIdentifierByte_range (h : isIdentifierByte c) : 39 ≤ c.toNat ∧ c.toNat ≤ 122 := by
  simp only [isIdentifierByte, Bool.or_eq_true, Text.isAlphanum_iff, decide_eq_true_eq] at h
  rcases h with (((h | h) | h) | rfl) | rfl
  · omega
  · omega
  · omega
  · decide
  · decide

theorem not_ident_of_whitespace (h : isWhitespace c) : ¬ isIdentifierByte c := by
  intro hident
  have h1 := isWhitespace_range h
  have h2 := isIdentifierByte_range hident
  omega

theorem not_whitespace_of_ident (h : isIdentifierByte c) : isWhitespace c = false := by
  by_contra hw
  exact not_ident_of_whitespace (by simpa using hw) h

theorem plain_of_whitespace (h : isWhitespace c) : Plain c := by
  refine ⟨?_, ?_, ?_, ?_, ?_⟩ <;> rintro rfl <;> revert h <;> decide

-- ---------------------------------------------------------------------------
-- Tidy lists
-- ---------------------------------------------------------------------------

theorem Tidy.append (h : Tidy ts) (h' : Tidy ts')
    (hsep : ts.getLast?.any Tok.isWord → ts'.head?.any Tok.isWord = false)
    (hc : .comment ∈ ts → '*' ∉ flat ts') : Tidy (ts ++ ts') := by
  induction ts with
  | nil => exact h'
  | cons t ts ih =>
    obtain ⟨hok, hnext, hstar, hts⟩ := h
    refine ⟨hok, ?_, ?_, ih hts ?_ ?_⟩
    · intro hw
      cases ts with
      | nil => exact hsep (by simpa using hw)
      | cons t' ts => exact hnext hw
    · rintro rfl
      show '*' ∉ flat (ts ++ ts')
      rw [flat_append, List.mem_append, not_or]
      exact ⟨hstar rfl, hc List.mem_cons_self⟩
    · intro hw
      apply hsep
      cases ts with
      | nil => simp at hw
      | cons t' ts => simpa using hw
    · exact fun hmem => hc (List.mem_cons_of_mem _ hmem)

theorem tidy_blanks (h : Blank ws) : Tidy (blanks ws) := by
  induction ws with
  | nil => trivial
  | cons c ws ih =>
    obtain ⟨hc, hws⟩ := List.forall_mem_cons.mp h
    exact ⟨⟨not_ident_of_whitespace hc, plain_of_whitespace hc⟩, nofun, nofun, ih hws⟩

theorem not_star_of_blank (h : Blank ws) : '*' ∉ ws := by
  intro hmem
  exact absurd (h _ hmem) (by decide)

@[simp] theorem head?_blanks (ws : Text) : (blanks ws).head? = ws.head?.map Tok.ch := by
  cases ws <;> rfl

@[simp] theorem getLast?_blanks (ws : Text) : (blanks ws).getLast? = ws.getLast?.map Tok.ch := by
  simp [blanks]

theorem not_endsInWord_blanks (hne : ws ≠ []) (ts : List Tok) :
    ¬ (ts ++ blanks ws).getLast?.any Tok.isWord := by
  simp [List.getLast?_append, List.getLast?_eq_some_getLast hne, Tok.isWord]

theorem comment_not_mem_blanks (ws : Text) : .comment ∉ blanks ws := by
  simp [blanks]

/-- The text of a tidy list without an open comment. -/
theorem Tidy.balanced (h : Tidy ts) (hc : .comment ∉ ts) : Balanced (flat ts) := by
  induction ts with
  | nil => exact .nil
  | cons t ts ih =>
    obtain ⟨hok, -, -, hts⟩ := h
    rw [List.mem_cons, not_or] at hc
    rw [flat_cons]
    apply Balanced.append _ (ih hts hc.2)
    cases t with
    | word w =>
      have hw : ∀ w : Text, (∀ c ∈ w, isIdentifierByte c) → Balanced w := by
        intro w hw
        induction w with
        | nil => exact .nil
        | cons c w ihw =>
          obtain ⟨hc, hw⟩ := List.forall_mem_cons.mp hw
          exact .plain (isIdentifierByte_plain hc) (ihw hw)
      exact hw w hok.2
    | ch c => exact .plain hok.2 .nil
    | group s => exact hok.balanced
    | comment => exact absurd rfl hc.1

def SolidEnd (t : Tok) : Prop := ∃ c ∈ t.text.getLast?, isWhitespace c = false

/-- A token whose text starts and ends with characters that are not blank, and not with a star. -/
def Solid (t : Tok) : Prop :=
  (∃ c ∈ t.text.head?, isWhitespace c = false ∧ c ≠ '*') ∧ SolidEnd t

theorem solid_word (h : Tok.Ok (.word w)) : Solid (.word w) := by
  obtain ⟨hne, hw⟩ := h
  obtain ⟨c, cs, rfl⟩ := List.exists_cons_of_ne_nil hne
  have hc := hw c List.mem_cons_self
  refine ⟨⟨c, rfl, not_whitespace_of_ident hc, ?_⟩, ?_⟩
  · rintro rfl
    revert hc
    decide
  · exact ⟨(c :: cs).getLast hne, List.getLast?_eq_some_getLast hne,
      not_whitespace_of_ident (hw _ (List.getLast_mem hne))⟩

theorem solid_group (h : Group s) : Solid (.group s) := by
  cases h with
  | @paren inner =>
    exact ⟨⟨'(', rfl, by decide, by decide⟩, ')', List.getLast?_concat (l := '(' :: inner), by decide⟩
  | @brace inner =>
    exact ⟨⟨'\x7b', rfl, by decide, by decide⟩, '\x7d', List.getLast?_concat (l := '\x7b' :: inner),
      by decide⟩

theorem solid_comment : Solid .comment :=
  ⟨⟨'(', rfl, by decide, by decide⟩, ')', rfl, by decide⟩

/-- A list that starts and ends with solid tokens. -/
def Firm (ts : List Tok) : Prop := (∃ t ∈ ts.head?, Solid t) ∧ ∃ t ∈ ts.getLast?, SolidEnd t

theorem Firm.append (h : Firm ts) (h' : Firm ts') (mid : List Tok) : Firm (ts ++ mid ++ ts') := by
  obtain ⟨⟨t, ht, hsolid⟩, -⟩ := h
  obtain ⟨-, t', ht', hsolid'⟩ := h'
  refine ⟨⟨t, ?_, hsolid⟩, t', ?_, hsolid'⟩
  · simp only [Option.mem_def] at ht
    simp [ht]
  · simp only [Option.mem_def] at ht'
    simp [List.getLast?_append, ht']

theorem Firm.head (h : Firm ts) : ∃ c ∈ (flat ts).head?, isWhitespace c = false ∧ c ≠ '*' := by
  obtain ⟨⟨t, ht, ⟨c, hc, hok⟩, -⟩, -⟩ := h
  cases ts with
  | nil => cases ht
  | cons t' ts =>
    cases ht
    refine ⟨c, ?_, hok⟩
    simp only [Option.mem_def] at hc
    simp [hc]

theorem Firm.tight (h : Firm ts) : Tight (flat ts) := by
  obtain ⟨c, hc, hok, -⟩ := h.head
  obtain ⟨-, t, ht, d, hd, hok'⟩ := h
  constructor
  · simp only [Option.mem_def] at hc
    simp [hc, hok]
  · obtain ⟨ts', rfl⟩ := List.getLast?_eq_some_iff.mp ht
    simp only [Option.mem_def] at hd
    simp [List.getLast?_append, hd, hok']

theorem Firm.ne_nil (h : Firm ts) : flat ts ≠ [] := by
  obtain ⟨c, hc, -⟩ := h.head
  rintro hnil
  simp [hnil] at hc

-- ---------------------------------------------------------------------------
-- Atoms
-- ---------------------------------------------------------------------------

theorem Name.tok_ok (h : Name w) : Tok.Ok (.word w) := by
  obtain ⟨⟨c, hc, -⟩, hw, -⟩ := h
  refine ⟨?_, hw⟩
  rintro rfl
  cases hc

theorem digits_ok (n : Nat) : Tok.Ok (.word (Nat.toDigits 10 n)) := by
  refine ⟨Nat.toDigits_ne_nil, ?_⟩
  intro c hc
  have hdigit : c.isDigit := Nat.isDigit_of_mem_toDigits (by decide) (by decide) hc
  simp [isIdentifierByte, Char.isAlphanum, hdigit]

theorem plain_dot : Tok.Ok (.ch '.') := by
  constructor <;> decide

theorem brace_group (h : Balanced e) : Group ('\x7b' :: (e ++ ['\x7d'])) := .brace h

theorem balanced_of_plain (h : ∀ c ∈ s, Plain c) : Balanced s := by
  induction s with
  | nil => exact .nil
  | cons c s ih =>
    obtain ⟨hc, hs⟩ := List.forall_mem_cons.mp h
    exact .plain hc (ih hs)

theorem intToks_tidy (n : Int64) : Tidy (intToks n) := by
  unfold intToks
  split
  · exact ⟨⟨by decide, by decide⟩, nofun, nofun, digits_ok _, fun _ => rfl, nofun, trivial⟩
  · exact ⟨digits_ok _, fun _ => rfl, nofun, trivial⟩

theorem solid_minus : Solid (.ch '-') := ⟨⟨'-', rfl, by decide, by decide⟩, '-', rfl, by decide⟩

theorem intToks_firm (n : Int64) : Firm (intToks n) := by
  unfold intToks
  split
  · exact ⟨⟨_, rfl, solid_minus⟩, _, rfl, (solid_word (digits_ok _)).2⟩
  · exact ⟨⟨_, rfl, solid_word (digits_ok _)⟩, _, rfl, (solid_word (digits_ok _)).2⟩

/-- What the proofs use of the tokens of an atom or a predicate. -/
structure Lexical (last : Bool) (ts : List Tok) : Prop where
  tidy : Tidy ts
  firm : Firm ts
  closed : last = false → .comment ∉ ts

theorem Lexical.word (h : Tok.Ok (.word w)) : Lexical last [.word w] where
  tidy := ⟨h, fun _ => rfl, nofun, trivial⟩
  firm := ⟨⟨_, rfl, solid_word h⟩, _, rfl, (solid_word h).2⟩
  closed := by simp

theorem Lexical.group (h : Group s) : Lexical last [.group s] where
  tidy := ⟨h, nofun, nofun, trivial⟩
  firm := ⟨⟨_, rfl, solid_group h⟩, _, rfl, (solid_group h).2⟩
  closed := by simp

theorem Lexical.call (h : Tok.Ok (.word w)) (hs : Group s) :
    Lexical last [.word w, .group s] where
  tidy := ⟨h, fun _ => rfl, nofun, hs, nofun, nofun, trivial⟩
  firm := ⟨⟨_, rfl, solid_word h⟩, _, rfl, (solid_group hs).2⟩
  closed := by simp

theorem word_ok (hne : w ≠ []) (hw : w.all isIdentifierByte = true) : Tok.Ok (.word w) :=
  ⟨hne, List.all_eq_true.1 hw⟩

theorem count_ok : Tok.Ok (.word "COUNT".toList) := word_ok (by decide) (by decide)

theorem atom_lexical {a : Atom} (hp : a.Printed) (hr : a.Readable last) : Lexical last a.toks := by
  cases a with
  | field t f =>
    obtain ⟨ht, hf⟩ := hp
    exact
      { tidy := ⟨ht.tok_ok, fun _ => rfl, nofun, plain_dot, nofun, nofun, hf.tok_ok, fun _ => rfl, nofun,
          trivial⟩
        firm := ⟨⟨_, rfl, solid_word ht.tok_ok⟩, _, rfl, (solid_word hf.tok_ok).2⟩
        closed := by simp [Atom.toks] }
  | dynamicField t c =>
    have hgroup := brace_group hr.1
    exact
      { tidy := ⟨hp.tok_ok, fun _ => rfl, nofun, plain_dot, nofun, nofun, hgroup, nofun, nofun,
          trivial⟩
        firm := ⟨⟨_, rfl, solid_word hp.tok_ok⟩, _, rfl, (solid_group hgroup).2⟩
        closed := by simp [Atom.toks] }
  | bare f => exact .word hp.tok_ok
  | int n =>
    refine ⟨intToks_tidy n, intToks_firm n, fun _ => ?_⟩
    simp only [Atom.toks, intToks]
    split <;> simp
  | timestamp =>
    exact .word (word_ok (by decide) (by decide))
  | countAll star spaced =>
    have hstar : Balanced " * ".toList :=
      balanced_of_plain (List.all_iff_forall_prop.1 (by decide))
    have hname : Balanced "sql_star".toList :=
      balanced_of_plain (List.all_iff_forall_prop.1 (by decide))
    have hspaced : Balanced " sql_star ".toList :=
      balanced_of_plain (List.all_iff_forall_prop.1 (by decide))
    cases star <;> cases spaced
    · exact .call count_ok (.paren (by decide) hname)
    · exact .call count_ok (.paren (by decide) hspaced)
    · exact
        { tidy := ⟨count_ok, fun _ => rfl, nofun, trivial, nofun, fun _ => by simp, trivial⟩
          firm := ⟨⟨_, rfl, solid_word count_ok⟩, _, rfl, solid_comment.2⟩
          closed := fun hlast => by simp [Atom.Readable, hlast] at hr }
    · exact .call count_ok (.paren (by decide) hstar)
  | inject e =>
    have hbracket : Balanced ('[' :: e ++ [']']) :=
      .plain (by decide) (Balanced.append hr (.plain (by decide) .nil))
    exact .group (brace_group hbracket)
  | splice e => exact .group (brace_group hr)

-- ---------------------------------------------------------------------------
-- Predicates
-- ---------------------------------------------------------------------------

theorem lexical_operator (hl : Lexical false ts) (hr : Lexical last ts') (hkw : Keyword kw)
    (hleft : Blank left) (hright : Blank right)
    (hbefore : left = [] → ts.getLast?.any Tok.isWord = false)
    (hafter : right = [] → ts'.head?.any Tok.isWord = false) :
    Lexical last (ts ++ blanks left ++ kw ++ blanks right ++ ts') where
  tidy := by
    have hkwc : .comment ∉ kw := by
      intro hc
      rcases hkw.2 _ hc with ⟨w, hw⟩ | ⟨c, hw⟩ <;> cases hw
    have hfront : Tidy (ts ++ blanks left) := by
      apply hl.tidy.append (tidy_blanks hleft)
      · intro _
        cases left <;> rfl
      · exact fun hc => absurd hc (hl.closed rfl)
    have hfrontc : .comment ∉ ts ++ blanks left := by
      simp [hl.closed rfl, comment_not_mem_blanks]
    have hkwfront : Tidy (ts ++ blanks left ++ kw) := by
      apply hfront.append hkw.1
      · intro hw
        cases left with
        | nil => simp [blanks, hbefore rfl] at hw
        | cons c left => exact absurd hw (not_endsInWord_blanks (List.cons_ne_nil c left) ts)
      · exact fun hc => absurd hc hfrontc
    have hkwfrontc : .comment ∉ ts ++ blanks left ++ kw := by
      rw [List.mem_append, not_or]
      exact ⟨hfrontc, hkwc⟩
    have hall : Tidy (ts ++ blanks left ++ kw ++ blanks right) := by
      apply hkwfront.append (tidy_blanks hright)
      · intro _
        cases right <;> rfl
      · exact fun hc => absurd hc hkwfrontc
    apply hall.append hr.tidy
    · intro hw
      cases right with
      | nil => exact hafter rfl
      | cons c right => exact absurd hw (not_endsInWord_blanks (List.cons_ne_nil c right) _)
    · intro hc
      rw [List.mem_append] at hc
      exact absurd hc (not_or.mpr ⟨hkwfrontc, comment_not_mem_blanks right⟩)
  firm := by
    have := hl.firm.append hr.firm (blanks left ++ kw ++ blanks right)
    simpa using this
  closed := by
    intro hlast hc
    simp only [List.mem_append] at hc
    rcases hc with (((hc | hc) | hc) | hc) | hc
    · exact hl.closed rfl hc
    · exact comment_not_mem_blanks _ hc
    · rcases hkw.2 _ hc with ⟨w, hw⟩ | ⟨c, hw⟩ <;> cases hw
    · exact comment_not_mem_blanks _ hc
    · exact hr.closed hlast hc

/-- Something between two texts that touches no word. -/
theorem lexical_spaced (hl : Lexical false ts) (hr : Lexical last ts') (hmid : Tidy mid)
    (hne : mid ≠ []) (hnone : ∀ t ∈ mid, t.isWord = false ∧ t ≠ .comment) :
    Lexical last (ts ++ mid ++ ts') where
  tidy := by
    have hhead : mid.head?.any Tok.isWord = false := by
      obtain ⟨t, mid, rfl⟩ := List.exists_cons_of_ne_nil hne
      exact (hnone t List.mem_cons_self).1
    have hlast : (ts ++ mid).getLast?.any Tok.isWord = false := by
      rw [List.getLast?_append, List.getLast?_eq_some_getLast hne]
      exact (hnone _ (List.getLast_mem hne)).1
    have hmidc : .comment ∉ mid := fun hc => (hnone _ hc).2 rfl
    have hfront : Tidy (ts ++ mid) :=
      hl.tidy.append hmid (fun _ => hhead) fun hc => absurd hc (hl.closed rfl)
    apply hfront.append hr.tidy
    · rw [hlast]
      nofun
    · intro hc
      rw [List.mem_append] at hc
      exact absurd hc (not_or.mpr ⟨hl.closed rfl, hmidc⟩)
  firm := hl.firm.append hr.firm mid
  closed := by
    intro hlast hc
    simp only [List.mem_append] at hc
    rcases hc with (hc | hc) | hc
    · exact hl.closed rfl hc
    · exact (hnone _ hc).2 rfl
    · exact hr.closed hlast hc

theorem lexical_gap (hl : Lexical false ts) (hr : Lexical last ts') (hb : Blank ws)
    (hne : ws ≠ []) : Lexical last (ts ++ blanks ws ++ ts') := by
  apply lexical_spaced hl hr (tidy_blanks hb)
  · simpa [blanks] using hne
  · intro t ht
    obtain ⟨c, -, rfl⟩ := List.mem_map.mp ht
    exact ⟨rfl, by rintro ⟨⟩⟩

/-- A symbol with or without blanks around it. -/
theorem lexical_symbol (hl : Lexical false ts) (hr : Lexical last ts') (hc : Tok.Ok (.ch c))
    (hleft : Blank left) (hright : Blank right) :
    Lexical last (ts ++ blanks left ++ [Tok.ch c] ++ blanks right ++ ts') := by
  have hmid : Tidy (blanks left ++ .ch c :: blanks right) := by
    apply (tidy_blanks hleft).append
    · exact ⟨hc, nofun, nofun, tidy_blanks hright⟩
    · exact fun _ => rfl
    · exact fun hmem => absurd hmem (comment_not_mem_blanks left)
  have hnone : ∀ t ∈ blanks left ++ .ch c :: blanks right, t.isWord = false ∧ t ≠ .comment := by
    intro t ht
    simp only [blanks, List.mem_append, List.mem_map, List.mem_cons] at ht
    rcases ht with ⟨d, -, rfl⟩ | rfl | ⟨d, -, rfl⟩ <;> exact ⟨rfl, nofun⟩
  simpa using lexical_spaced hl hr hmid (by simp) hnone

theorem keyword_word (hw : Tok.Ok (.word w)) : Keyword [.word w] :=
  ⟨⟨hw, fun _ => rfl, nofun, trivial⟩, by simp⟩

theorem keyword_ch (hc : ¬ isIdentifierByte c ∧ Plain c) (h : kw = [] ∨ Keyword kw) :
    Keyword (.ch c :: kw) := by
  rcases h with rfl | h
  · exact ⟨⟨hc, nofun, nofun, trivial⟩, by simp⟩
  · refine ⟨⟨hc, nofun, nofun, h.1⟩, ?_⟩
    intro t ht
    rcases List.mem_cons.mp ht with rfl | ht
    · exact Or.inr ⟨c, rfl⟩
    · exact h.2 t ht

theorem keyword_op (op : CmpOp) : Keyword op.toks := by
  have hlt : ¬ isIdentifierByte '<' ∧ Plain '<' := by constructor <;> decide
  have hgt : ¬ isIdentifierByte '>' ∧ Plain '>' := by constructor <;> decide
  have heq : ¬ isIdentifierByte '=' ∧ Plain '=' := by constructor <;> decide
  cases op with
  | eq => exact keyword_ch heq (.inl rfl)
  | ne => exact keyword_ch hlt (.inr (keyword_ch hgt (.inl rfl)))
  | lt => exact keyword_ch hlt (.inl rfl)
  | le => exact keyword_ch hlt (.inr (keyword_ch heq (.inl rfl)))
  | gt => exact keyword_ch hgt (.inl rfl)
  | ge => exact keyword_ch hgt (.inr (keyword_ch heq (.inl rfl)))

theorem keyword_and : Keyword andToks := keyword_word (word_ok (by decide) (by decide))

theorem keyword_or : Keyword orToks := keyword_word (word_ok (by decide) (by decide))

theorem isNullToks_tidy : Tidy isNullToks := by
  exact ⟨word_ok (by decide) (by decide), fun _ => rfl, nofun, ⟨by decide, by decide⟩, nofun, nofun,
    word_ok (by decide) (by decide), fun _ => rfl, nofun, trivial⟩

theorem paren_group (hl : Lexical false ts) (hleft : Blank left) (hright : Blank right) :
    Group ('(' :: ((left ++ flat ts ++ right) ++ [')'])) := by
  have hblank : ∀ {ws : Text}, Blank ws → Balanced ws := fun h =>
    balanced_of_plain fun c hc => plain_of_whitespace (h c hc)
  apply Group.paren
  · cases left with
    | nil =>
      obtain ⟨c, hc, -, hstar⟩ := hl.firm.head
      simp only [Option.mem_def] at hc
      simp [hc, hstar]
    | cons c left =>
      intro hc
      simp only [List.cons_append, List.head?_cons, Option.some.injEq] at hc
      exact not_star_of_blank hleft (hc ▸ List.mem_cons_self)
  · exact ((hblank hleft).append (hl.tidy.balanced (hl.closed rfl))).append (hblank hright)

theorem pred_lexical (p : Pred) :
    ∀ last, p.Printed → p.Readable last → Lexical last p.toks := by
  induction p with
  | atom a => exact fun last hp hr => atom_lexical hp hr
  | isNull p left ih =>
    intro last hp hr
    obtain ⟨hp, -, hleft, hne⟩ := hp
    have hl := ih last hp hr
    have hmid : Tidy (p.toks ++ blanks left) := by
      apply hl.tidy.append (tidy_blanks hleft)
      · intro _
        cases left <;> rfl
      · intro _
        simpa using not_star_of_blank hleft
    refine ⟨?_, ?_, ?_⟩
    · apply hmid.append isNullToks_tidy
      · intro hw
        exact absurd hw (not_endsInWord_blanks hne _)
      · intro _
        decide
    · have hword : Firm isNullToks :=
        ⟨⟨_, rfl, solid_word isNullToks_tidy.1⟩, _, rfl, (solid_word isNullToks_tidy.2.2.2.2.2.2.1).2⟩
      exact hl.firm.append hword (blanks left)
    · intro hlast hc
      simp only [Pred.toks, List.mem_append] at hc
      rcases hc with (hc | hc) | hc
      · exact hl.closed hlast hc
      · exact comment_not_mem_blanks _ hc
      · simp [isNullToks] at hc
  | cmp op p left right q ihp ihq =>
    intro last hp hr
    obtain ⟨hp, hq, -, -, hleft, hright⟩ := hp
    obtain ⟨hrp, hrq, -, hbefore, hafter⟩ := hr
    exact lexical_operator (ihp false hp hrp) (ihq last hq hrq) (keyword_op op) hleft hright
      hbefore hafter
  | and p left right q ihp ihq =>
    intro last hp hr
    obtain ⟨hp, hq, -, -, hleft, hright, hne, hne'⟩ := hp
    exact lexical_operator (ihp false hp hr.1) (ihq last hq hr.2) keyword_and hleft hright
      (fun h => absurd h hne) fun h => absurd h hne'
  | or p left right q ihp ihq =>
    intro last hp hr
    obtain ⟨hp, hq, hleft, hright, hne, hne'⟩ := hp
    exact lexical_operator (ihp false hp hr.1) (ihq last hq hr.2) keyword_or hleft hright
      (fun h => absurd h hne) fun h => absurd h hne'
  | paren left p right ih =>
    intro last hp hr
    obtain ⟨hp, hleft, hright⟩ := hp
    exact .group (paren_group (ih false hp hr) hleft hright)

end UrWeb.Sql
