import UrWeb.Sql.Desugaring
import UrWeb.Sql.StatementText

/-!
# Reading lists

The elements of the lists of a statement: the items of a SELECT, the fields and
values of an INSERT, and the assignments of an UPDATE.
-/

namespace UrWeb.Sql

/-- Every element is read, in its place. -/
theorem mapM_ok {g : Text → Parsed β} {R : β → γ → Prop} {v : α → γ} {f : α → List Tok}
    {l : List α} (h : ∀ a ∈ l, ∃ b, g (flat (f a)) = .ok b ∧ R b (v a)) :
    ∃ bs, (l.map fun a => flat (f a)).mapM g = .ok bs ∧ List.Forall₂ R bs (l.map v) := by
  induction l with
  | nil => exact ⟨[], rfl, .nil⟩
  | cons a l ih =>
    obtain ⟨b, hb, hr⟩ := h a List.mem_cons_self
    obtain ⟨bs, hbs, hrs⟩ := ih fun a' ha' => h a' (List.mem_cons_of_mem _ ha')
    refine ⟨b :: bs, ?_, .cons hr hrs⟩
    rw [List.map_cons, List.mapM_cons, hb, hbs]
    rfl

theorem Listed.Printed.blanks {P : α → Prop} {l : Listed α} (h : l.Printed P) : l.Blanks := by
  induction l with
  | one a => trivial
  | more a left right rest ih =>
    obtain ⟨-, hleft, hright, hrest⟩ := h
    exact ⟨hleft, hright, ih hrest⟩

theorem Listed.Printed.elems {P : α → Prop} {l : Listed α} (h : l.Printed P) :
    ∀ a ∈ l.elems, P a := by
  induction l with
  | one a =>
    intro a' ha'
    cases List.mem_singleton.mp ha'
    exact h
  | more a left right rest ih =>
    obtain ⟨ha, -, -, hrest⟩ := h
    intro a' ha'
    rcases List.mem_cons.mp ha' with rfl | ha'
    · exact ha
    · exact ih hrest a' ha'

theorem word_not_mem_listed {f : α → List Tok} {l : Listed α} (h : ∀ a ∈ l.elems, .word w ∉ f a) :
    .word w ∉ l.toks f := by
  induction l with
  | one a => exact h a (by simp [Listed.elems])
  | more a left right rest ih =>
    simp only [Listed.toks, List.mem_append, List.mem_singleton, not_or]
    exact ⟨⟨⟨⟨h a (by simp [Listed.elems]), word_not_blank w left⟩, by rintro ⟨⟩⟩, word_not_blank w right⟩,
      ih fun a' ha' => h a' (by simp [Listed.elems, ha'])⟩

section
variable {fragments : Fragments} {m : Meaning}

-- ---------------------------------------------------------------------------
-- Items
-- ---------------------------------------------------------------------------

theorem double_group (h : Balanced c) :
    Group ('\x7b' :: (('\x7b' :: (c ++ ['\x7d'])) ++ ['\x7d'])) := .brace (.brace h .nil)

/-- A keyword is no token of `t.f`, whatever the field is made of. -/
theorem word_not_mem_field {x : Tok} (ht : Name t) (hf : (∃ f, x = .word f ∧ Name f) ∨ x.isWord = false)
    (hw : w ∈ reserved) : .word w ∉ [Tok.word t, .ch '.', x] := by
  simp only [List.mem_cons, List.not_mem_nil, or_false, not_or]
  refine ⟨word_ne_name ht hw, by rintro ⟨⟩, ?_⟩
  rintro rfl
  rcases hf with ⟨f, heq, hf⟩ | hf
  · exact word_ne_name hf hw heq
  · cases hf

theorem item_lexical {item : SelectItem} (h : item.Printed) (hr : item.Readable) :
    Lexical false item.toks ∧ .ch ',' ∉ item.toks ∧ .word "FROM".toList ∉ item.toks := by
  cases item with
  | field t f =>
    obtain ⟨ht, hf⟩ := h
    refine ⟨?_, by simp [SelectItem.toks], ?_⟩
    · exact
        { tidy := ⟨ht.tok_ok, fun _ => rfl, nofun, plain_dot, nofun, nofun, hf.tok_ok, fun _ => rfl,
            nofun, trivial⟩
          firm := ⟨⟨_, rfl, solid_word ht.tok_ok⟩, _, rfl, (solid_word hf.tok_ok).2⟩
          closed := by simp [SelectItem.toks] }
    · exact word_not_mem_field ht (.inl ⟨f, rfl, hf⟩) (by decide)
  | dynamicFields t c =>
    obtain ⟨ht, hc⟩ := h
    have hgroup := double_group hc
    refine ⟨?_, by simp [SelectItem.toks], ?_⟩
    · exact
        { tidy := ⟨ht.tok_ok, fun _ => rfl, nofun, plain_dot, nofun, nofun, hgroup, nofun, nofun,
            trivial⟩
          firm := ⟨⟨_, rfl, solid_word ht.tok_ok⟩, _, rfl, (solid_group hgroup).2⟩
          closed := by simp [SelectItem.toks] }
    · exact word_not_mem_field ht (.inr rfl) (by decide)
  | expression p left right name =>
    obtain ⟨hp, hleft, hright, hname⟩ := h
    refine ⟨?_, ?_, ?_⟩
    · exact lexical_keyword (pred_lexical p false hp hr) (.word hname.tok_ok)
        (keywordTok_ok (by decide)) hleft hright
    · simp [SelectItem.toks, keywordTok, comma_not_mem_pred hp, comma_not_blank hleft.1,
        comma_not_blank hright.1]
    · simp only [SelectItem.toks, keywordTok, List.mem_append, List.mem_singleton, not_or]
      exact ⟨⟨⟨⟨word_not_mem_pred hp (by decide), word_not_blank _ _⟩, by decide⟩,
        word_not_blank _ _⟩, word_ne_name hname (by decide)⟩

theorem parseSelectItem_item {item : SelectItem} (h : item.Printed) (hr : item.Readable)
    (hf : item.FragmentsParsed fragments m) :
    ∃ e, parseSelectItem fragments (flat item.toks) = .ok e ∧ SameItem e (item.item m) := by
  have hl := (item_lexical h hr).1
  have hkw : Keyword [.word "AS".toList] := keywordTok_ok (s := "AS") (by decide)
  have has : "AS".toList ∈ reserved := by decide
  cases item with
  | field t f =>
    obtain ⟨ht, hname⟩ := h
    have hnone : splitTopLevel (flat (SelectItem.field t f).toks) "AS".toList = none := by
      exact split_none hkw (by decide) hl.tidy hl.trim
        (not_infix_of_not_mem (word_not_mem_field ht (.inl ⟨f, rfl, hname⟩) has))
    have htext : flat (SelectItem.field t f).toks = t ++ '.' :: f := by
      simp [SelectItem.toks, Tok.text]
    have hbrace : splitOnce ".\x7b\x7b".toList (t ++ '.' :: f) = none := by
      refine splitOnce_none (by decide) fun hi => ?_
      have hmem : '\x7b' ∈ t ++ '.' :: f := hi.subset (by decide)
      simp only [List.mem_append, List.mem_cons] at hmem
      rcases hmem with hmem | heq | hmem
      · exact ht.not_mem (by decide) hmem
      · exact absurd heq (by decide)
      · exact hname.not_mem (by decide) hmem
    have hsplit : splitOnce ".".toList (t ++ '.' :: f) = some (t, f) :=
      splitOnce_at (ht.not_mem (by decide)) f
    refine ⟨_, ?_, .fields _ _⟩
    rw [parseSelectItem, hnone, htext, hbrace, hsplit]
    simp only [ht.tight, hname.tight]
    rfl
  | dynamicFields t c =>
    obtain ⟨ht, -⟩ := h
    have hnone : splitTopLevel (flat (SelectItem.dynamicFields t c).toks) "AS".toList = none := by
      exact split_none hkw (by decide) hl.tidy hl.trim
        (not_infix_of_not_mem (word_not_mem_field ht (.inr rfl) has))
    have htext : flat (SelectItem.dynamicFields t c).toks =
        t ++ (".\x7b\x7b".toList ++ (c ++ "\x7d\x7d".toList)) := by
      simp [SelectItem.toks, Tok.text]
    have hsplit : splitOnce ".\x7b\x7b".toList (flat (SelectItem.dynamicFields t c).toks) =
        some (t, c ++ "\x7d\x7d".toList) := by
      rw [htext]
      exact splitOnce_at (ht.not_mem (by decide)) _
    refine ⟨_, ?_, .fields _ _⟩
    rw [parseSelectItem, hnone]
    simp only [hsplit, parseDynamicField, stripSuffix_append, ht.tight]
    rw [show fragments.parseConstructorFragment (trim c) = .ok (m.con c) from hf]
    rfl
  | expression p left right name =>
    obtain ⟨hp, hleft, hright, hname⟩ := h
    have hlname : Lexical false [.word name] := .word hname.tok_ok
    have hsplit : splitTopLevel (flat (SelectItem.expression p left right name).toks) "AS".toList =
        some (p.text, flat [.word name]) :=
      split_keyword (pred_lexical p false hp hr) hlname hkw hleft hright
        (word_not_mem_pred hp (by decide)) hl.trim
    obtain ⟨e, he, hsame⟩ := parseSqlValue_pred ⟨hp, hr, hf⟩ (text_tight hp hr)
    refine ⟨_, ?_, .expression (String.ofList name) hsame⟩
    rw [parseSelectItem, hsplit]
    simp only [he]
    simp [Tok.text]

end

end UrWeb.Sql
