import UrWeb.Sql.ListParse
import UrWeb.Sql.PredicateParse

/-!
# The text of statements

The parts of a printed statement are lexical, and a keyword of the statement is
no token of the parts before it.
-/

namespace UrWeb.Sql

-- ---------------------------------------------------------------------------
-- Keywords
-- ---------------------------------------------------------------------------

theorem word_of_reserved (h : w ∈ reserved) : Tok.Ok (.word w) := by
  have hall : ∀ w ∈ reserved, w ≠ [] ∧ w.all isIdentifierByte = true := by decide
  obtain ⟨hne, hw⟩ := hall w h
  exact word_ok hne hw

theorem keywordTok_ok (h : s.toList ∈ reserved) : Keyword [keywordTok s] :=
  keyword_word (word_of_reserved h)

theorem Lexical.keyword (h : s.toList ∈ reserved) : Lexical last [keywordTok s] :=
  .word (keywordTok_ok h).1.1

theorem lexical_keyword (hl : Lexical false ts) (hr : Lexical last ts') (hkw : Keyword kw)
    (hleft : Gap left) (hright : Gap right) :
    Lexical last (ts ++ blanks left ++ kw ++ blanks right ++ ts') :=
  lexical_operator hl hr hkw hleft.1 hright.1 (fun hnil => absurd hnil hleft.2)
    fun hnil => absurd hnil hright.2

/-- Splitting a statement at a keyword that is not in the part before it. -/
theorem split_keyword (hl : Lexical false ts) (hr : Lexical last ts')
    (hkw : Keyword (.word w :: kw)) (hleft : Gap left) (hright : Gap right) (hk : .word w ∉ ts)
    (hs : trim s = flat (ts ++ blanks left ++ (.word w :: kw) ++ blanks right ++ ts')) :
    splitTopLevel s (flat (.word w :: kw)) = some (flat ts, flat ts') :=
  split_operator hl hr hkw hleft.1 hright.1 (fun hnil => absurd hnil hleft.2)
    (fun hnil => absurd hnil hright.2) hk nofun hs

theorem Lexical.trim (h : Lexical last ts) : trim (flat ts) = flat ts := h.firm.tight.trim

/-- The words of statements that no predicate contains. -/
def statementWords : List Text :=
  ["AS", "FROM", "JOIN", "LEFT", "ON", "SET", "SELECT", "VALUES", "WHERE"].map String.toList

theorem word_not_mem_pred {p : Pred} (h : p.Printed) (hw : w ∈ statementWords) :
    .word w ∉ p.toks := by
  have hall : ∀ w ∈ statementWords, Tok.level (.word w) = 4 := by decide
  exact not_mem_of_level h ((level_le p).trans_lt (by rw [hall w hw]; decide))

theorem comma_not_mem_pred {p : Pred} (h : p.Printed) : .ch ',' ∉ p.toks :=
  not_mem_of_level h ((level_le p).trans_lt (by decide))

theorem word_ne_name (h : Name w) (hw : w' ∈ reserved) : Tok.word w' ≠ .word w := by
  rintro heq
  cases heq
  exact h.2.2 hw

theorem word_not_blank (w ws : Text) : .word w ∉ blanks ws := by
  simp [blanks]

-- ---------------------------------------------------------------------------
-- Tables
-- ---------------------------------------------------------------------------

theorem table_lexical {t : Table} (h : t.Printed) : Lexical false t.toks := by
  cases t with
  | plain name => exact .word h.tok_ok
  | aliased name left right aliasName =>
    obtain ⟨hname, hleft, hright, halias⟩ := h
    exact lexical_keyword (.word hname.tok_ok) (.word halias.tok_ok) (keywordTok_ok (by decide))
      hleft hright

theorem word_not_mem_table {t : Table} (h : t.Printed) (hw : w ∈ reserved)
    (hne : w ≠ "AS".toList) : .word w ∉ t.toks := by
  cases t with
  | plain name => simpa [Table.toks] using word_ne_name h hw
  | aliased name left right aliasName =>
    obtain ⟨hname, -, -, halias⟩ := h
    simp only [Table.toks, keywordTok, List.mem_append, List.mem_singleton, not_or]
    refine ⟨⟨⟨⟨word_ne_name hname hw, word_not_blank w left⟩, ?_⟩, word_not_blank w right⟩,
      word_ne_name halias hw⟩
    exact fun heq => hne (Tok.word.inj heq)

theorem comma_not_mem_table {t : Table} (h : t.Printed) : .ch ',' ∉ t.toks := by
  cases t with
  | plain name => simp [Table.toks]
  | aliased name left right aliasName =>
    obtain ⟨-, hleft, hright, -⟩ := h
    simp [Table.toks, keywordTok, comma_not_blank hleft.1, comma_not_blank hright.1]

-- ---------------------------------------------------------------------------
-- Joins
-- ---------------------------------------------------------------------------

theorem operand_lexical {j : Join} (h : j.Printed) (hr : j.on.Readable last) :
    Lexical last j.operand := by
  obtain ⟨-, -, htable, hleft, hright, hon⟩ := h
  exact lexical_keyword (table_lexical htable) (pred_lexical j.on last hon hr)
    (keywordTok_ok (by decide)) hleft hright

theorem word_not_mem_operand {j : Join} (h : j.Printed) (hw : w ∈ reserved)
    (hst : w ∈ statementWords) (hne : w ≠ "AS".toList) (hne' : w ≠ "ON".toList) :
    .word w ∉ j.operand := by
  obtain ⟨-, -, htable, -, -, hon⟩ := h
  simp only [Join.operand, keywordTok, List.mem_append, List.mem_singleton, not_or]
  refine ⟨⟨⟨⟨word_not_mem_table htable hw hne, word_not_blank w _⟩, ?_⟩, word_not_blank w _⟩,
    word_not_mem_pred hon hst⟩
  exact fun heq => hne' (Tok.word.inj heq)

theorem keyword_join (kind : SqlJoinKind) : Keyword (joinToks kind) := by
  cases kind with
  | inner => exact keywordTok_ok (by decide)
  | left =>
    refine ⟨⟨word_of_reserved (by decide), fun _ => rfl, nofun, ⟨by decide, by decide⟩, nofun, nofun,
      word_of_reserved (by decide), fun _ => rfl, nofun, trivial⟩, ?_⟩
    simp [joinToks, keywordTok]

/-- A join behind tables or joins. -/
def joined (ts : List Tok) (j : Join) : List Tok :=
  ts ++ blanks j.left ++ joinToks j.kind ++ blanks j.right ++ j.operand

theorem joined_lexical {j : Join} (hl : Lexical false ts) (h : j.Printed)
    (hr : j.on.Readable last) : Lexical last (joined ts j) :=
  lexical_keyword hl (operand_lexical h hr) (keyword_join j.kind) h.1 h.2.1

end UrWeb.Sql
