import UrWeb.Sql.FromParse
import UrWeb.Sql.ItemParse

/-!
# Reading statements

A statement is told by its first word and split at its keywords. It returns the
desugaring of the statement up to associativity of its predicates.
-/

namespace UrWeb.Sql

section
variable {fragments : Fragments} {m : Meaning}

theorem trimStartMatches_once {pattern : Text} (h : ¬ pattern <+: s) (hrounds : 1 < rounds) :
    trimStartMatches pattern rounds (pattern ++ s) = s := by
  obtain ⟨rounds, rfl⟩ : ∃ k, rounds = k + 2 := ⟨rounds - 2, by omega⟩
  have hstop : stripPrefix pattern s = none := by
    rw [stripPrefix, if_neg]
    simpa using h
  rw [trimStartMatches, stripPrefix_append]
  simp only [trimStartMatches, hstop]

/-- The first word of a statement, with blanks behind it. -/
theorem trimStartMatches_keyword (hkw : kw.head?.any isWhitespace = false) (hlen : 1 < kw.length)
    (hgap : Gap ws) (s : Text) :
    trimStartMatches kw (kw ++ ws ++ s).length (kw ++ ws ++ s) = ws ++ s := by
  have hne : kw ≠ [] := by
    rintro rfl
    simp at hlen
  rw [List.append_assoc]
  apply trimStartMatches_once
  · rintro ⟨rest, hrest⟩
    obtain ⟨c, kw, rfl⟩ := List.exists_cons_of_ne_nil hne
    obtain ⟨d, ws, rfl⟩ := List.exists_cons_of_ne_nil hgap.2
    simp only [List.cons_append, List.cons.injEq] at hrest
    have hd := hgap.1 d List.mem_cons_self
    simp [hrest.1, hd] at hkw
  · rw [List.length_append]
    omega

-- ---------------------------------------------------------------------------
-- SELECT
-- ---------------------------------------------------------------------------

theorem items_elements {list : Listed SelectItem} (h : list.Printed SelectItem.Printed)
    (hr : ∀ item ∈ list.elems, item.Readable) : Elements SelectItem.toks list := by
  intro item hitem
  obtain ⟨hl, hcomma, -⟩ := item_lexical (h.elems item hitem) (hr item hitem)
  exact ⟨hl, hcomma⟩

theorem trim_gap (h : Tight s) (hb : Blank ws) : trim (ws ++ s) = s := by
  have h0 : Blank [] := by simp [Blank]
  simpa using trim_blanks h hb h0

theorem columns_lexical {columns : Columns} (h : columns.Printed) (hr : columns.Readable)
    (hgap : Gap gap) : Lexical false ([keywordTok "SELECT"] ++ blanks gap ++ columns.toks) ∧
      .word "FROM".toList ∉ [keywordTok "SELECT"] ++ blanks gap ++ columns.toks ∧
      Tight (flat columns.toks) := by
  have hselect : Lexical false [keywordTok "SELECT"] := .keyword (by decide)
  have hword : Tok.word "FROM".toList ∉ [keywordTok "SELECT"] := by decide
  cases columns with
  | star =>
    have hstar : Tok.Ok (.ch '*') := by constructor <;> decide
    refine ⟨?_, ?_, by constructor <;> decide⟩
    · have hend : Tidy ([keywordTok "SELECT"] ++ blanks gap ++ [Tok.ch '*']) := by
        have hfront : Tidy ([keywordTok "SELECT"] ++ blanks gap) := by
          apply hselect.tidy.append (tidy_blanks hgap.1)
          · intro _
            cases gap <;> rfl
          · exact fun hc => absurd hc (hselect.closed rfl)
        have htail : Tidy [.ch '*'] := ⟨hstar, nofun, nofun, trivial⟩
        apply hfront.append htail
        · exact fun _ => rfl
        · intro hc
          rw [List.mem_append] at hc
          exact absurd hc (not_or.mpr ⟨hselect.closed rfl, comment_not_mem_blanks gap⟩)
      exact
        { tidy := hend
          firm := ⟨⟨_, rfl, solid_word (keywordTok_ok (s := "SELECT") (by decide)).1.1⟩, .ch '*',
            List.getLast?_concat, '*', rfl, by decide⟩
          closed := by simp [keywordTok, Columns.toks, comment_not_mem_blanks] }
    · simp only [Columns.toks, List.mem_append, not_or]
      exact ⟨⟨hword, word_not_blank _ _⟩, by decide⟩
  | items list =>
    have hl := lexical_listed (items_elements h hr) h.blanks
    refine ⟨lexical_gap hselect hl hgap.1 hgap.2, ?_, hl.firm.tight⟩
    simp only [Columns.toks, List.mem_append, not_or]
    refine ⟨⟨hword, word_not_blank _ _⟩, word_not_mem_listed fun item hitem => ?_⟩
    exact (item_lexical (h.elems item hitem) (hr item hitem)).2.2

theorem parseSelectSpec_columns {columns : Columns} (h : columns.Printed) (hr : columns.Readable)
    (hf : columns.FragmentsParsed fragments m) :
    ∃ spec, parseSelectSpec fragments (flat columns.toks) = .ok spec ∧
      SameSpec spec (columns.spec m) := by
  cases columns with
  | star => exact ⟨.star, rfl, .star⟩
  | items list =>
    have helems := items_elements h hr
    have hl := lexical_listed helems h.blanks
    have hstar : flat (list.toks SelectItem.toks) ≠ "*".toList := by
      intro heq
      obtain ⟨c, hc, -, hne⟩ := hl.firm.head
      rw [heq] at hc
      cases hc
      exact hne rfl
    have hsplit := splitTopLevelCommas_listed helems h.blanks (by rw [hl.trim, hl.trim] :
      trim (trim (flat (list.toks SelectItem.toks))) = flat (list.toks SelectItem.toks))
    obtain ⟨items, hitems, hsame⟩ := mapM_ok fun item hitem =>
      parseSelectItem_item (h.elems item hitem) (hr item hitem) (hf item hitem)
    refine ⟨.items items, ?_, .items hsame⟩
    rw [Columns.toks, parseSelectSpec, hsplit, hl.trim, if_neg hstar, hitems]
    rfl

/-- The clauses of a SELECT behind FROM, with or without WHERE. -/
theorem fromClause_lexical {sources : Listed Source} {filter : Option Filter}
    (h : sources.Printed Source.Printed) (hr : sources.Readable filter.isNone)
    (hp : ∀ f ∈ filter, f.Printed) (hrp : ∀ f ∈ filter, f.pred.Readable true) :
    Lexical true (fromClause sources filter) := by
  cases filter with
  | none => exact (sources_lexical h hr).1
  | some f =>
    obtain ⟨hleft, hright, hpred⟩ := hp f rfl
    exact lexical_keyword (sources_lexical h hr).1 (pred_lexical f.pred true hpred (hrp f rfl))
      (keywordTok_ok (by decide)) hleft hright

theorem keyword_where : Keyword [.word "WHERE".toList] := keywordTok_ok (s := "WHERE") (by decide)

theorem parseSelectPayload_select {columns : Columns} {filter : Option Filter}
    (hst : (Statement.select gap columns left right sources filter).Printed)
    (hr : (Statement.select gap columns left right sources filter).Readable)
    (hf : (Statement.select gap columns left right sources filter).FragmentsParsed fragments m)
    (hs : s = (Statement.select gap columns left right sources filter).text) :
    ∃ e, parseSelectPayload fragments s = .ok e ∧
      SameUpToAssoc e ((Statement.select gap columns left right sources filter).exp m) := by
  obtain ⟨hgap, hcolumns, hleft, hright, hsources, hfilter⟩ := hst
  obtain ⟨-, hrc, hrs, hrf⟩ := hr
  obtain ⟨hfc, hfs, hff⟩ := hf
  obtain ⟨hlc, hfromc, htight⟩ := columns_lexical hcolumns hrc hgap
  have hlf := fromClause_lexical hsources hrs hfilter hrf
  have hkw : Keyword [.word "FROM".toList] := keywordTok_ok (s := "FROM") (by decide)
  have hall : Lexical true ([keywordTok "SELECT"] ++ blanks gap ++ columns.toks ++ blanks left ++
      [Tok.word "FROM".toList] ++ blanks right ++ fromClause sources filter) :=
    lexical_keyword hlc hlf hkw hleft hright
  have hsplit : splitTopLevel s "FROM".toList =
      some (flat ([keywordTok "SELECT"] ++ blanks gap ++ columns.toks),
        flat (fromClause sources filter)) :=
    split_keyword hlc hlf hkw hleft hright hfromc (by rw [hs]; exact hall.trim)
  have hselect : flat ([keywordTok "SELECT"] ++ blanks gap ++ columns.toks) =
      "SELECT".toList ++ gap ++ flat columns.toks := by
    simp [keywordTok, Tok.text]
  have htrim : trim (trimStartMatches "SELECT".toList
      ("SELECT".toList ++ gap ++ flat columns.toks).length
      ("SELECT".toList ++ gap ++ flat columns.toks)) = flat columns.toks := by
    rw [trimStartMatches_keyword (by decide) (by decide) hgap]
    exact trim_gap htight hgap.1
  obtain ⟨spec, hspec, hsamespec⟩ := parseSelectSpec_columns hcolumns hrc hfc
  obtain ⟨hlsrc, hwhere⟩ := sources_lexical hsources hrs
  obtain ⟨e, he, hsame⟩ : ∃ e, parseFromClause fragments
      ((flat (sources.toks Source.toks)).length + 1) (flat (sources.toks Source.toks)) = .ok e ∧
        SameSource e (sources.reference m) :=
    parseFromClause_sources hsources hrs hfs hlsrc.trim (Nat.lt_succ_self _)
  rw [parseSelectPayload, hsplit]
  simp only [require, Parsed.ok_bind, hselect, htrim, hspec]
  cases filter with
  | none =>
    have hnone : splitTopLevel (flat (sources.toks Source.toks)) "WHERE".toList = none :=
      split_none keyword_where (by decide) hlf.tidy hlf.trim (not_infix_of_not_mem hwhere)
    refine ⟨_, ?_, same_select hsamespec _ hsame.2 (.refl _)⟩
    simp only [fromClause, hnone, he, Parsed.ok_bind]
    rw [hsame.1]
    rfl
  | some f =>
    obtain ⟨hgapl, hgapr, hpred⟩ := hfilter f rfl
    have hsplit' : splitTopLevel (flat (fromClause sources (some f))) "WHERE".toList =
        some (flat (sources.toks Source.toks), f.pred.text) :=
      split_keyword hlsrc (pred_lexical f.pred true hpred (hrf f rfl)) keyword_where hgapl hgapr
        hwhere hlf.trim
    obtain ⟨w, hw, hsamew⟩ := parseSqlValue_pred ⟨hpred, hrf f rfl, hff f rfl⟩
      (text_tight hpred (hrf f rfl))
    refine ⟨_, ?_, same_select hsamespec _ hsame.2 hsamew⟩
    simp only [hsplit', he, Parsed.ok_bind, hw]
    rw [hsame.1]
    rfl

-- ---------------------------------------------------------------------------
-- DELETE and UPDATE
-- ---------------------------------------------------------------------------

theorem filter_lexical {f : Filter} (hl : Lexical false ts) (h : f.Printed)
    (hr : f.pred.Readable true) : Lexical true (f.after ts) :=
  lexical_keyword hl (pred_lexical f.pred true h.2.2 hr) (keywordTok_ok (by decide)) h.1 h.2.1

/-- The text in front of a WHERE clause, and the clause. -/
theorem split_filter {f : Filter} (hl : Lexical false ts) (h : f.Printed)
    (hr : f.pred.Readable true) (hts : .word "WHERE".toList ∉ ts) :
    splitTopLevel (flat (f.after ts)) "WHERE".toList = some (flat ts, f.pred.text) :=
  split_keyword hl (pred_lexical f.pred true h.2.2 hr) keyword_where h.1 h.2.1 hts
    (filter_lexical hl h hr).trim

theorem parseDeletePayload_delete {filter : Filter}
    (hst : (Statement.delete gap gap' table filter).Printed)
    (hr : (Statement.delete gap gap' table filter).Readable)
    (hf : (Statement.delete gap gap' table filter).FragmentsParsed fragments m)
    (hs : s = (Statement.delete gap gap' table filter).text) :
    ∃ e, parseDeletePayload fragments s = .ok e ∧
      SameUpToAssoc e ((Statement.delete gap gap' table filter).exp m) := by
  obtain ⟨hgap, hgap', htable, hfilter⟩ := hst
  have hlt : Lexical false [.word table] := .word htable.tok_ok
  have hlf := filter_lexical hlt hfilter hr.2
  have hlfrom : Lexical true ([keywordTok "FROM"] ++ blanks gap' ++ filter.after [.word table]) :=
    lexical_gap (.keyword (by decide)) hlf hgap'.1 hgap'.2
  have htext : s = "DELETE".toList ++ gap ++
      flat ([keywordTok "FROM"] ++ blanks gap' ++ filter.after [.word table]) := by
    rw [hs]
    simp [Statement.text, Statement.toks, keywordTok, Tok.text]
  have hfrom : flat ([keywordTok "FROM"] ++ blanks gap' ++ filter.after [.word table]) =
      "FROM".toList ++ (gap' ++ flat (filter.after [.word table])) := by
    simp [keywordTok, Tok.text]
  have hwhere : .word "WHERE".toList ∉ [Tok.word table] := by
    rw [List.mem_singleton]
    exact word_ne_name htable (by decide)
  obtain ⟨w, hw, hsame⟩ := parseSqlValue_pred ⟨hfilter.2.2, hr.2, hf⟩ (text_tight hfilter.2.2 hr.2)
  refine ⟨_, ?_, .app (.refl _) hsame⟩
  rw [parseDeletePayload, htext, trimStartMatches_keyword (by decide) (by decide) hgap,
    trim_gap hlfrom.firm.tight hgap.1, hfrom, stripPrefix_append]
  simp only [require, Parsed.ok_bind, trim_gap hlf.firm.tight hgap'.1,
    split_filter hlt hfilter hr.2 hwhere, hw]
  simp [Tok.text]
  rfl

theorem assignment_lexical {a : Assignment} (h : a.Printed) (hr : a.Readable) :
    Lexical false a.toks ∧ .ch ',' ∉ a.toks ∧ .word "WHERE".toList ∉ a.toks := by
  obtain ⟨hfield, hleft, hright, hvalue⟩ := h
  refine ⟨?_, ?_, ?_⟩
  · exact lexical_symbol (.word hfield.tok_ok) (pred_lexical a.value false hvalue hr.1)
      (by constructor <;> decide) hleft hright
  · simp [Assignment.toks, comma_not_mem_pred hvalue, comma_not_blank hleft, comma_not_blank hright]
  · simp only [Assignment.toks, List.mem_append, List.mem_singleton, not_or]
    exact ⟨⟨⟨⟨word_ne_name hfield (by decide), word_not_blank _ _⟩, by rintro ⟨⟩⟩, word_not_blank _ _⟩,
      word_not_mem_pred hvalue (by decide)⟩

theorem parseAssignment_assignment {a : Assignment} (h : a.Printed) (hr : a.Readable)
    (hf : a.value.FragmentsParsed fragments m) :
    ∃ x, parseAssignment fragments (flat a.toks) = .ok x ∧
      x.1 = String.ofList a.field ∧ SameUpToAssoc x.2 (a.value.value m) := by
  have hl := (assignment_lexical h hr).1
  obtain ⟨hfield, hleft, hright, hvalue⟩ := h
  obtain ⟨hread, hne, hafter⟩ := hr
  have hlf : Lexical false [.word a.field] := .word hfield.tok_ok
  have hkw : Keyword [.ch '='] := keyword_ch (by constructor <;> decide) (.inl rfl)
  have hsplit : splitTopLevel (flat a.toks) "=".toList = some (flat [.word a.field], a.value.text) := by
    refine split_operator hlf (pred_lexical a.value false hvalue hread) hkw hleft hright
      (fun hnil => absurd hnil hne) hafter (by simp) ?_ hl.trim
    rintro c hc heq
    cases heq
    exact absurd hc (by decide)
  obtain ⟨e, he, hsame⟩ := parseSqlValue_pred ⟨hvalue, hread, hf⟩ (text_tight hvalue hread)
  refine ⟨(String.ofList a.field, e), ?_, rfl, hsame⟩
  rw [parseAssignment, hsplit]
  simp only [require, Parsed.ok_bind, he]
  simp [Tok.text]
  rfl

theorem parseUpdatePayload_update {assignments : Listed Assignment} {filter : Filter}
    (hst : (Statement.update gap table left right assignments filter).Printed)
    (hr : (Statement.update gap table left right assignments filter).Readable)
    (hf : (Statement.update gap table left right assignments filter).FragmentsParsed fragments m)
    (hs : s = (Statement.update gap table left right assignments filter).text) :
    ∃ e, parseUpdatePayload fragments s = .ok e ∧
      SameUpToAssoc e ((Statement.update gap table left right assignments filter).exp m) := by
  obtain ⟨hgap, htable, hleft, hright, hassign, hfilter⟩ := hst
  obtain ⟨-, hra, hrf⟩ := hr
  obtain ⟨hfa, hff⟩ := hf
  have helems : Elements Assignment.toks assignments := fun a ha =>
    ⟨(assignment_lexical (hassign.elems a ha) (hra a ha)).1,
      (assignment_lexical (hassign.elems a ha) (hra a ha)).2.1⟩
  have hla := lexical_listed helems hassign.blanks
  have hwhere : .word "WHERE".toList ∉ assignments.toks Assignment.toks :=
    word_not_mem_listed fun a ha => (assignment_lexical (hassign.elems a ha) (hra a ha)).2.2
  have hlt : Lexical false [.word table] := .word htable.tok_ok
  have hlf := filter_lexical hla hfilter hrf
  have hkw : Keyword [.word "SET".toList] := keywordTok_ok (s := "SET") (by decide)
  have hall : Lexical true ([Tok.word table] ++ blanks left ++ [Tok.word "SET".toList] ++
      blanks right ++ filter.after (assignments.toks Assignment.toks)) :=
    lexical_keyword hlt hlf hkw hleft hright
  have htext : s = "UPDATE".toList ++ gap ++ flat ([Tok.word table] ++ blanks left ++
      [Tok.word "SET".toList] ++ blanks right ++
        filter.after (assignments.toks Assignment.toks)) := by
    rw [hs]
    simp [Statement.text, Statement.toks, keywordTok, Tok.text, Filter.after]
  have hset : .word "SET".toList ∉ [Tok.word table] := by
    rw [List.mem_singleton]
    exact word_ne_name htable (by decide)
  have hsplit : splitTopLevel (flat ([Tok.word table] ++ blanks left ++ [Tok.word "SET".toList] ++
      blanks right ++ filter.after (assignments.toks Assignment.toks))) "SET".toList =
      some (flat [.word table], flat (filter.after (assignments.toks Assignment.toks))) :=
    split_keyword hlt hlf hkw hleft hright hset hall.trim
  have hcommas := splitTopLevelCommas_listed helems hassign.blanks hla.trim
  obtain ⟨xs, hxs, hsame⟩ := mapM_ok (v := fun a => (String.ofList a.field, a.value.value m))
    (R := fun (x y : String × Exp) => x.1 = y.1 ∧ SameUpToAssoc x.2 y.2) fun a ha =>
      parseAssignment_assignment (hassign.elems a ha) (hra a ha) (hfa a ha)
  obtain ⟨w, hw, hsamew⟩ := parseSqlValue_pred ⟨hfilter.2.2, hrf, hff⟩ (text_tight hfilter.2.2 hrf)
  refine ⟨_, ?_, same_update (String.ofList table) hsame hsamew⟩
  rw [parseUpdatePayload, htext, trimStartMatches_keyword (by decide) (by decide) hgap]
  simp only [trim_gap hall.firm.tight hgap.1, hsplit]
  simp only [require, Parsed.ok_bind, split_filter hla hfilter hrf hwhere, hcommas, hxs, hw]
  simp [Tok.text]
  rfl

-- ---------------------------------------------------------------------------
-- INSERT
-- ---------------------------------------------------------------------------

theorem betweenParens_balanced {inner : Text} (h : Balanced inner) (rest : Text) (id : DiagnosticId) :
    betweenParens ('(' :: (inner ++ ')' :: rest)) id = .ok (inner, rest) := by
  rw [betweenParens, findMatchingRparen_balanced h]
  simp only [require, Parsed.ok_bind, Nat.add_sub_cancel, List.drop_succ_cons, List.drop_zero,
    List.take_left]
  rw [List.drop_length_add_append, List.drop_succ_cons, List.drop_zero]
  rfl

theorem parenList_balanced {f : α → List Tok} {l : ParenList α} {P : α → Prop}
    (h : Elements f l.list) (hl : l.Printed P) :
    Balanced (l.left ++ flat (l.list.toks f) ++ l.right) ∧
      Firm (l.toks f) ∧
      splitTopLevelCommas (l.left ++ flat (l.list.toks f) ++ l.right) =
        l.list.elems.map fun a => flat (f a) := by
  obtain ⟨hleft, hright, hlist⟩ := hl
  have hlex := lexical_listed h hlist.blanks
  have hgroup := paren_group hlex hleft hright
  have hblank : ∀ {ws : Text}, Blank ws → Balanced ws := fun h =>
    balanced_of_plain fun c hc => plain_of_whitespace (h c hc)
  refine ⟨?_, ⟨⟨_, rfl, solid_group hgroup⟩, _, rfl, (solid_group hgroup).2⟩, ?_⟩
  · exact ((hblank hleft).append (hlex.tidy.balanced (hlex.closed rfl))).append (hblank hright)
  · exact splitTopLevelCommas_listed h hlist.blanks (trim_blanks hlex.firm.tight hleft hright)

theorem parseInsertPayload_insert {fields : ParenList Text} {values : ParenList Pred}
    (hst : (Statement.insert gap gap' table left fields left' right' values).Printed)
    (hr : (Statement.insert gap gap' table left fields left' right' values).Readable)
    (hf : (Statement.insert gap gap' table left fields left' right' values).FragmentsParsed
      fragments m)
    (hs : s = (Statement.insert gap gap' table left fields left' right' values).text) :
    ∃ e, parseInsertPayload fragments s = .ok e ∧
      SameUpToAssoc e
        ((Statement.insert gap gap' table left fields left' right' values).exp m) := by
  obtain ⟨hgap, hgap', htable, hleft, hfields, hleft', hright', hvalues, -⟩ := hst
  obtain ⟨-, hrv⟩ := hr
  have hfelems : Elements (fun f => [Tok.word f]) fields.list := by
    intro f hmem
    exact ⟨.word (hfields.2.2.elems f hmem).tok_ok, by simp⟩
  have hvelems : Elements Pred.toks values.list := fun p hp =>
    ⟨pred_lexical p false (hvalues.2.2.elems p hp) (hrv p hp),
      comma_not_mem_pred (hvalues.2.2.elems p hp)⟩
  obtain ⟨hbf, -, hcf⟩ := parenList_balanced hfelems hfields
  obtain ⟨hbv, hfirmv, hcv⟩ := parenList_balanced hvelems hvalues
  -- the parts of the text from the right to the left
  have hfirm : ∀ {w : Text}, Tok.Ok (.word w) → ∀ mid : List Tok,
      Tight (flat ([Tok.word w] ++ mid ++ values.toks Pred.toks)) := by
    intro w hw mid
    have hfirst : Firm [.word w] := ⟨⟨_, rfl, solid_word hw⟩, _, rfl, (solid_word hw).2⟩
    exact (hfirst.append hfirmv mid).tight
  let inner := values.left ++ flat (values.list.toks Pred.toks) ++ values.right
  let fieldInner := fields.left ++ flat (fields.list.toks fun f => [Tok.word f]) ++ fields.right
  have hvtext : flat (values.toks Pred.toks) = '(' :: (inner ++ ')' :: []) := by
    simp [inner, ParenList.toks, Tok.text]
  let valuesText := "VALUES".toList ++ (right' ++ '(' :: (inner ++ ')' :: []))
  let tableText := table ++ left ++ '(' :: (fieldInner ++ ')' :: (left' ++ valuesText))
  have htext : s = "INSERT".toList ++ gap ++ ("INTO".toList ++ (gap' ++ tableText)) := by
    rw [hs]
    simp [Statement.text, Statement.toks, keywordTok, Tok.text, tableText, valuesText, fieldInner,
      inner, ParenList.toks]
  have htvalues : Tight valuesText := by
    have h := hfirm (keywordTok_ok (s := "VALUES") (by decide)).1.1 (blanks right')
    simpa [Tok.text, valuesText, hvtext] using h
  have httable : Tight tableText := by
    have h := hfirm htable.tok_ok (blanks left ++ fields.toks (fun f => [.word f]) ++ blanks left' ++
      [keywordTok "VALUES"] ++ blanks right')
    simpa [Tok.text, tableText, valuesText, fieldInner, inner, keywordTok, ParenList.toks] using h
  have htinto : Tight ("INTO".toList ++ (gap' ++ tableText)) := by
    have h := hfirm (keywordTok_ok (s := "INTO") (by decide)).1.1 (blanks gap' ++
      [Tok.word table] ++ blanks left ++ fields.toks (fun f => [.word f]) ++ blanks left' ++
      [keywordTok "VALUES"] ++ blanks right')
    simpa [Tok.text, tableText, valuesText, fieldInner, inner, keywordTok, ParenList.toks] using h
  have htparen : Tight ('(' :: (inner ++ ')' :: [])) := hvtext ▸ hfirmv.tight
  have hfieldParens : ∀ rest id, betweenParens ('(' :: (fieldInner ++ ')' :: rest)) id =
      .ok (fieldInner, rest) := betweenParens_balanced hbf
  have hparens : ∀ rest id, betweenParens ('(' :: (inner ++ ')' :: rest)) id = .ok (inner, rest) :=
    betweenParens_balanced hbv
  have hopen : '(' ∉ table ++ left := by
    rw [List.mem_append, not_or]
    exact ⟨htable.not_mem (by decide), fun hmem => absurd (hleft _ hmem) (by decide)⟩
  have hsplit : splitOnce "(".toList tableText =
      some (table ++ left, fieldInner ++ ')' :: (left' ++ valuesText)) := splitOnce_at hopen _
  have hdrop : tableText.drop (table ++ left).length =
      '(' :: (fieldInner ++ ')' :: (left' ++ valuesText)) := List.drop_left
  have hname : trim (table ++ left) = table := by
    have h0 : Blank [] := by simp [Blank]
    have hfirst : Firm [.word table] :=
      ⟨⟨_, rfl, solid_word htable.tok_ok⟩, _, rfl, (solid_word htable.tok_ok).2⟩
    have h := trim_blanks hfirst.tight h0 hleft
    simpa [Tok.text] using h
  obtain ⟨es, hes, hsame⟩ := mapM_ok fun p hp =>
    parseSqlValue_pred ⟨hvalues.2.2.elems p hp, hrv p hp, hf p hp⟩
      (text_tight (hvalues.2.2.elems p hp) (hrv p hp))
  refine ⟨_, ?_, same_insert (String.ofList table) (fields.list.elems.map String.ofList) hsame⟩
  rw [parseInsertPayload, htext, trimStartMatches_keyword (by decide) (by decide) hgap,
    trim_gap htinto hgap.1, stripPrefix_append]
  simp only [require, Parsed.ok_bind, trim_gap httable hgap'.1, hsplit, hdrop,
    hfieldParens, trim_gap htvalues hleft']
  simp only [valuesText, stripPrefix_append, Parsed.ok_bind, trim_gap htparen hright',
    List.head?_cons, ne_eq, not_true_eq_false, if_false, hparens, hname, fieldInner, hcf]
  simp only [inner, hcv, hes, Parsed.ok_bind]
  simp [Tok.text]
  rfl

end

end UrWeb.Sql
