import UrWeb.Sql.StatementText

/-!
# Reading FROM clauses

A clause is split at its LEFT JOIN, else at its first JOIN, else at its first
comma. Joins and commas do not mix, and a join behind another goes into the
condition of the first, unless it is a LEFT JOIN behind a JOIN.
-/

namespace UrWeb.Sql

section
variable {fragments : Fragments} {m : Meaning}

/-- The same tables under expressions that are the same up to associativity. -/
def SameSource (x y : List String × Exp) : Prop := x.1 = y.1 ∧ SameUpToAssoc x.2 y.2

theorem SameSource.refl (x : List String × Exp) : SameSource x x := ⟨rfl, .refl _⟩

theorem SameSource.join (kind : SqlJoinKind) (hl : SameSource l l') (hr : SameSource r r')
    (he : SameUpToAssoc e e') :
    SameSource (sqlJoinExpression kind l r e) (sqlJoinExpression kind l' r' e') := by
  refine ⟨?_, .app (.app (.app (.refl _) hl.2) hr.2) he⟩
  show l.1 ++ r.1 = l'.1 ++ r'.1
  rw [hl.1, hr.1]

-- ---------------------------------------------------------------------------
-- Tables
-- ---------------------------------------------------------------------------

/-- Text without the keyword of a join. -/
theorem split_join_none (h : Tidy ts) (hs : trim s = flat ts) (hjoin : .word "JOIN".toList ∉ ts) :
    splitTopLevel s "LEFT JOIN".toList = none ∧ splitTopLevel s "JOIN".toList = none := by
  have hleft : ¬ joinToks .left <:+: ts := fun hi => hjoin (hi.subset (by decide))
  have hinner : ¬ joinToks .inner <:+: ts := fun hi => hjoin (hi.subset (by decide))
  exact ⟨split_none (keyword_join .left) (by decide) h hs hleft,
    split_none (keyword_join .inner) (by decide) h hs hinner⟩

theorem split_comma_none (h : Tidy ts) (hs : trim s = flat ts) (hcomma : .ch ',' ∉ ts) :
    splitTopLevel s ",".toList = none :=
  split_none (keyword_ch (by constructor <;> decide) (.inl rfl)) (by decide) h hs
    (not_infix_of_not_mem hcomma)

theorem parseFromClause_table {t : Table} (h : t.Printed) (hs : trim s = flat t.toks)
    (rounds : Nat) : parseFromClause fragments (rounds + 1) s = .ok t.reference := by
  have hl := table_lexical h
  have hjoin := split_join_none hl.tidy hs (word_not_mem_table h (by decide) (by decide))
  have hcomma := split_comma_none hl.tidy hs (comma_not_mem_table h)
  have hs' : trim (trim s) = flat t.toks := by rw [hs, hl.trim]
  have hkw : Keyword [.word "AS".toList] := keywordTok_ok (s := "AS") (by decide)
  have hne : ∀ {w : Text}, Name w → Tok.word "AS".toList ∉ [.word w] := by
    intro w hw
    simpa using word_ne_name hw (by decide : "AS".toList ∈ reserved)
  rw [parseFromClause, hjoin.1, hjoin.2, hcomma]
  cases t with
  | plain name =>
    have hnone : splitTopLevel (trim s) "AS".toList = none :=
      split_none hkw (by decide) hl.tidy hs' (not_infix_of_not_mem (hne h))
    simp only [hnone]
    rw [hs]
    simp [Table.toks, Tok.text, Table.reference]
  | aliased name left right aliasName =>
    obtain ⟨hname, hleft, hright, halias⟩ := h
    have hla : Lexical false [.word aliasName] := .word halias.tok_ok
    have hsplit : splitTopLevel (trim s) "AS".toList =
        some (flat [.word name], flat [.word aliasName]) :=
      split_keyword (.word hname.tok_ok) hla hkw hleft hright (hne hname) hs'
    simp only [hsplit]
    simp [Tok.text, Table.reference]

theorem tables_lexical {sources : Listed Source} (h : sources.Printed Source.Printed)
    (hr : sources.TablesOnly) : Lexical false (sources.toks Source.toks) ∧
      ∀ w ∈ reserved, w ≠ "AS".toList → .word w ∉ sources.toks Source.toks := by
  have htoks : ∀ {s : Source}, s.joins = [] → s.toks = s.table.toks := by
    intro s hnil
    simp [Source.toks, hnil]
  induction sources with
  | one src =>
    simp only [Listed.toks, htoks hr]
    exact ⟨table_lexical h.1, fun w hw hne => word_not_mem_table h.1 hw hne⟩
  | more src left right rest ih =>
    obtain ⟨hsrc, hleft, hright, hrest⟩ := h
    obtain ⟨hnil, -, -, hro⟩ := hr
    obtain ⟨hl, hwords⟩ := ih hrest hro
    simp only [Listed.toks, htoks hnil]
    refine ⟨lexical_symbol (table_lexical hsrc.1) hl (by constructor <;> decide) hleft hright, ?_⟩
    intro w hw hne
    simp only [List.mem_append, List.mem_singleton, not_or]
    exact ⟨⟨⟨⟨word_not_mem_table hsrc.1 hw hne, word_not_blank w left⟩, nofun⟩,
      word_not_blank w right⟩, hwords w hw hne⟩

/-- Tables without joins are split at every comma. -/
theorem parseFromClause_tables {sources : Listed Source} (h : sources.Printed Source.Printed)
    (hr : sources.TablesOnly) (hs : trim s = flat (sources.toks Source.toks))
    (hrounds : (flat (sources.toks Source.toks)).length < rounds) :
    parseFromClause fragments rounds s = .ok (sources.reference m) := by
  have htoks : ∀ {s : Source}, s.joins = [] → s.toks = s.table.toks ∧
      s.reference m = s.table.reference := by
    intro s hnil
    simp [Source.toks, Source.reference, hnil]
  induction sources generalizing s rounds with
  | one src =>
    obtain ⟨ht, hv⟩ := htoks hr
    obtain ⟨rounds, rfl⟩ : ∃ k, rounds = k + 1 :=
      Nat.exists_eq_succ_of_ne_zero ((Nat.zero_le _).trans_lt hrounds).ne'
    simp only [Listed.toks, Listed.reference, ht, hv] at hs ⊢
    exact parseFromClause_table h.1 hs rounds
  | more src left right rest ih =>
    obtain ⟨hl, hwords⟩ := tables_lexical h hr
    obtain ⟨hsrc, hleft, hright, hrest⟩ := h
    obtain ⟨hnil, hne, hne', hro⟩ := hr
    obtain ⟨ht, hv⟩ := htoks hnil
    have hjoin := split_join_none hl.tidy hs (hwords _ (by decide) (by decide))
    have hlt := table_lexical hsrc.1
    have hlr := (tables_lexical hrest hro).1
    have hcomma : Keyword [.ch ','] := keyword_ch (by constructor <;> decide) (.inl rfl)
    have hsplit : splitTopLevel s ",".toList =
        some (flat src.table.toks, flat (rest.toks Source.toks)) := by
      refine split_operator hlt hlr hcomma hleft hright (fun hnil => absurd hnil hne)
        (fun hnil => absurd hnil hne') (comma_not_mem_table hsrc.1) ?_ (by rw [hs, Listed.toks, ht])
      rintro c hc heq
      cases heq
      exact absurd hc (by decide)
    simp only [Listed.toks, flat_append, List.length_append, flat_blanks] at hrounds
    have hpos : 0 < left.length := List.length_pos_iff.mpr hne
    obtain ⟨rounds, rfl⟩ : ∃ k, rounds = k + 2 := ⟨rounds - 2, by omega⟩
    have hparse : parseFromClause fragments (rounds + 1) (flat (rest.toks Source.toks)) =
        .ok (rest.reference m) := ih hrest hro hlr.trim (by omega)
    rw [parseFromClause, hjoin.1, hjoin.2, hsplit]
    simp only [parseFromClause_table hsrc.1 hlt.trim rounds, hparse, Listed.reference, hv]
    rfl

-- ---------------------------------------------------------------------------
-- Joins
-- ---------------------------------------------------------------------------

/-- A join behind text without a LEFT JOIN, or without any join if it is an inner one. -/
theorem parseFromClause_join {j : Join} (hts : Lexical false ts) (h : j.Printed)
    (hacc : Accepted fragments m last j.on) (hs : trim s = flat (joined ts j))
    (hleft : .word "LEFT".toList ∉ ts) (hinner : j.kind = .inner → .word "JOIN".toList ∉ ts)
    (hparse : ∃ e, parseFromClause fragments rounds (flat ts) = .ok e ∧ SameSource e e')
    (hrounds : 0 < rounds) :
    ∃ e, parseFromClause fragments (rounds + 1) s = .ok e ∧
      SameSource e (sqlJoinExpression j.kind e' j.table.reference (j.on.value m)) := by
  have hop := operand_lexical h hacc.readable
  have hl := joined_lexical hts h hacc.readable
  have hword : .word "LEFT".toList ∉ j.operand :=
    word_not_mem_operand h (by decide) (by decide) (by decide) (by decide)
  obtain ⟨hgap, hgap', htable, hgapOn, hgapOn', hon⟩ := h
  have hkw : Keyword [.word "ON".toList] := keywordTok_ok (s := "ON") (by decide)
  have hsplitOn : splitTopLevel (flat j.operand) "ON".toList =
      some (flat j.table.toks, j.on.text) :=
    split_keyword (table_lexical htable) (pred_lexical j.on last hon hacc.readable) hkw hgapOn
      hgapOn' (word_not_mem_table htable (by decide) (by decide)) hop.trim
  obtain ⟨e1, he1, hsame1⟩ := hparse
  obtain ⟨e2, he2, hsame2⟩ := parseSqlValue_pred hacc (text_tight hon hacc.readable)
  obtain ⟨rounds, rfl⟩ := Nat.exists_eq_succ_of_ne_zero hrounds.ne'
  have htab : parseFromClause fragments (rounds + 1) (flat j.table.toks) = .ok j.table.reference :=
    parseFromClause_table htable (table_lexical htable).trim rounds
  have hsame := SameSource.join j.kind hsame1 (.refl j.table.reference) hsame2
  refine ⟨_, ?_, hsame⟩
  rw [joined] at hs
  cases hk : j.kind with
  | left =>
    rw [hk] at hs
    have hsplit : splitTopLevel s "LEFT JOIN".toList = some (flat ts, flat j.operand) :=
      split_keyword hts hop (keyword_join .left) hgap hgap' hleft hs
    rw [parseFromClause, hsplit]
    simp only [he1, hsplitOn, require, Parsed.ok_bind, he2, htab]
    rfl
  | inner =>
    rw [hk] at hs
    have hsplit : splitTopLevel s "JOIN".toList = some (flat ts, flat j.operand) :=
      split_keyword hts hop (keyword_join .inner) hgap hgap' (hinner hk) hs
    have hs' : trim s = flat (ts ++ blanks j.left ++ joinToks .inner ++ blanks j.right ++ j.operand) :=
      hs
    rw [joined, hk] at hl
    have hnone : splitTopLevel s "LEFT JOIN".toList = none := by
      refine split_none (keyword_join .left) (by decide) hl.tidy hs' ?_
      apply not_infix_of_not_mem
      simp only [joinToks, keywordTok, List.mem_append, List.mem_singleton, not_or]
      exact ⟨⟨⟨⟨hleft, word_not_blank _ _⟩, by decide⟩, word_not_blank _ _⟩, hword⟩
    rw [parseFromClause, hnone, hsplit]
    simp only [he1, hsplitOn, require, Parsed.ok_bind, he2, htab]
    rfl

/-- The joins that are read one by one. -/
theorem readable_joins {src : Source} (h : src.Readable last) :
    src.joins = [] ∨ (∃ j, src.joins = [j] ∧ j.on.Readable last) ∨
      ∃ j j', src.joins = [j, j'] ∧ j.kind = .inner ∧ j'.kind = .left ∧ j.on.Readable false ∧
        j'.on.Readable last := by
  obtain ⟨hkinds, hread⟩ := h
  rcases hj : src.joins with _ | ⟨j, _ | ⟨j', _ | ⟨j'', js⟩⟩⟩
  · exact .inl rfl
  · rw [hj] at hread
    exact .inr (.inl ⟨j, rfl, hread⟩)
  · rw [hj] at hread hkinds
    simp only [List.map_cons, List.map_nil, List.mem_cons, List.cons.injEq, List.not_mem_nil,
      reduceCtorEq, and_false, and_true, or_false, false_or] at hkinds
    exact .inr (.inr ⟨j, j', rfl, hkinds.1, hkinds.2, hread.1, hread.2⟩)
  · rw [hj] at hkinds
    simp at hkinds

theorem Lexical.weaken (h : Lexical false ts) : Lexical last ts :=
  ⟨h.tidy, h.firm, fun _ => h.closed rfl⟩

theorem where_not_mem_joined {j : Join} (hts : .word "WHERE".toList ∉ ts) (h : j.Printed) :
    .word "WHERE".toList ∉ joined ts j := by
  have hjoin : ∀ kind, .word "WHERE".toList ∉ joinToks kind := by
    intro kind
    cases kind <;> decide
  simp only [joined, List.mem_append, not_or]
  exact ⟨⟨⟨⟨hts, word_not_blank _ _⟩, hjoin _⟩, word_not_blank _ _⟩,
    word_not_mem_operand h (by decide) (by decide) (by decide) (by decide)⟩

theorem source_lexical {src : Source} (h : src.Printed) (hr : src.Readable last) :
    Lexical last src.toks ∧ .word "WHERE".toList ∉ src.toks := by
  have hshape := readable_joins hr
  obtain ⟨t, joins⟩ := src
  obtain ⟨ht, hjoins⟩ := h
  have hlt := table_lexical ht
  have hwhere : .word "WHERE".toList ∉ t.toks := word_not_mem_table ht (by decide) (by decide)
  rcases hshape with rfl | ⟨j, rfl, hread⟩ | ⟨j, j', rfl, -, -, hread, hread'⟩
  · exact ⟨hlt.weaken, hwhere⟩
  · have hj := hjoins j (by simp)
    exact ⟨joined_lexical hlt hj hread, where_not_mem_joined hwhere hj⟩
  · have hj := hjoins j (by simp)
    have hj' := hjoins j' (by simp)
    exact ⟨joined_lexical (joined_lexical hlt hj hread) hj' hread',
      where_not_mem_joined (where_not_mem_joined hwhere hj) hj'⟩

theorem sources_lexical {sources : Listed Source} (h : sources.Printed Source.Printed)
    (hr : sources.Readable last) : Lexical last (sources.toks Source.toks) ∧
      .word "WHERE".toList ∉ sources.toks Source.toks := by
  cases sources with
  | one src => exact source_lexical h hr
  | more src left right rest =>
    obtain ⟨hl, hwords⟩ := tables_lexical h hr
    exact ⟨hl.weaken, hwords _ (by decide) (by decide)⟩

theorem parseFromClause_source {src : Source} (h : src.Printed) (hr : src.Readable last)
    (hf : src.FragmentsParsed fragments m) (hs : trim s = flat src.toks)
    (hrounds : (flat src.toks).length < rounds) :
    ∃ e, parseFromClause fragments rounds s = .ok e ∧ SameSource e (src.reference m) := by
  have hshape := readable_joins hr
  obtain ⟨t, joins⟩ := src
  obtain ⟨ht, hjoins⟩ := h
  have hlt := table_lexical ht
  have hleft : .word "LEFT".toList ∉ t.toks := word_not_mem_table ht (by decide) (by decide)
  have hjoin : .word "JOIN".toList ∉ t.toks := word_not_mem_table ht (by decide) (by decide)
  -- every join is longer than its keyword
  have hlen : ∀ (ts : List Tok) (j : Join),
      (flat ts).length + 4 ≤ (flat (joined ts j)).length := by
    intro ts j
    have hkw : 4 ≤ (flat (joinToks j.kind)).length := by cases j.kind <;> decide
    simp only [joined, flat_append, List.length_append]
    omega
  rcases hshape with rfl | ⟨j, rfl, hread⟩ | ⟨j, j', rfl, hk, hk', hread, hread'⟩
  · obtain ⟨rounds, rfl⟩ : ∃ k, rounds = k + 1 :=
      Nat.exists_eq_succ_of_ne_zero ((Nat.zero_le _).trans_lt hrounds).ne'
    exact ⟨_, parseFromClause_table ht hs rounds, .refl _⟩
  · have hj := hjoins j (by simp)
    have hl1 := hlen t.toks j
    change (flat (joined t.toks j)).length < rounds at hrounds
    obtain ⟨rounds, rfl⟩ : ∃ k, rounds = k + 2 := ⟨rounds - 2, by omega⟩
    exact parseFromClause_join hlt hj ⟨hj.2.2.2.2.2, hread, hf j (by simp)⟩ hs hleft
      (fun _ => hjoin) ⟨_, parseFromClause_table ht hlt.trim rounds, .refl _⟩ (Nat.succ_pos _)
  · have hj := hjoins j (by simp)
    have hj' := hjoins j' (by simp)
    have hl1 := joined_lexical hlt hj hread
    have hlen1 := hlen t.toks j
    have hlen2 := hlen (joined t.toks j) j'
    change (flat (joined (joined t.toks j) j')).length < rounds at hrounds
    obtain ⟨rounds, rfl⟩ : ∃ k, rounds = k + 3 := ⟨rounds - 3, by omega⟩
    have hone : ∃ e, parseFromClause fragments (rounds + 2) (flat (joined t.toks j)) = .ok e ∧
        SameSource e (Source.reference m ⟨t, [j]⟩) :=
      parseFromClause_join hlt hj ⟨hj.2.2.2.2.2, hread, hf j (by simp)⟩ hl1.trim hleft
        (fun _ => hjoin) ⟨_, parseFromClause_table ht hlt.trim rounds, .refl _⟩ (Nat.succ_pos _)
    have hleft' : .word "LEFT".toList ∉ joined t.toks j := by
      simp only [joined, hk, joinToks, keywordTok, List.mem_append, List.mem_singleton, not_or]
      exact ⟨⟨⟨⟨hleft, word_not_blank _ _⟩, by decide⟩, word_not_blank _ _⟩,
        word_not_mem_operand hj (by decide) (by decide) (by decide) (by decide)⟩
    exact parseFromClause_join hl1 hj' ⟨hj'.2.2.2.2.2, hread', hf j' (by simp)⟩ hs hleft'
      (fun hinner => by rw [hk'] at hinner; cases hinner) hone (Nat.succ_pos _)

/-- A clause is read with its tables and conditions in their places. -/
theorem parseFromClause_sources {sources : Listed Source}
    (h : sources.Printed Source.Printed) (hr : sources.Readable last)
    (hf : ∀ s ∈ sources.elems, s.FragmentsParsed fragments m)
    (hs : trim s = flat (sources.toks Source.toks))
    (hrounds : (flat (sources.toks Source.toks)).length < rounds) :
    ∃ e, parseFromClause fragments rounds s = .ok e ∧ SameSource e (sources.reference m) := by
  cases sources with
  | one src => exact parseFromClause_source h hr (hf src (by simp [Listed.elems])) hs hrounds
  | more src left right rest =>
    exact ⟨_, parseFromClause_tables h hr hs hrounds, .refl _⟩

end

end UrWeb.Sql
