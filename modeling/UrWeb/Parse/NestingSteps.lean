import UrWeb.Lib.Text
import UrWeb.Parse.LiteralsRead
import UrWeb.Parse.NestingRun

/-!
# Steps over lexemes and brackets

A plain token only moves the lexer on. Each bracket has its own effect on mode, stack,
count and flag, and a law of its own here.
-/

namespace UrWeb.Parse

variable {F : Type}

-- ---------------------------------------------------------------------------
-- Plain tokens
-- ---------------------------------------------------------------------------

/-- Only the position changes. -/
def Moves (s : XmlAwareLexer) (out : LexResult F × XmlAwareLexer) : Prop :=
  ∃ k, out.2 = s.advance k

/-- An item that is a plain token only moves the lexer. -/
def Plainly (m : LexMode) (s : XmlAwareLexer) (out : LexResult F × XmlAwareLexer) : Prop :=
  ∀ lo tok hi, out.1 = .ok (lo, tok, hi) → tok.plain m → Moves s out

theorem Moves.plainly (h : Moves s out) (m : LexMode) : Plainly (F := F) m s out :=
  fun _ _ _ _ _ => h

theorem plainly_bracket {tok : Token F} (h : tok.plain m = false) (s : XmlAwareLexer)
    (lo hi : Nat) (s' : XmlAwareLexer) :
    Plainly m s ((.ok (lo, tok, hi) : LexResult F), s') := by
  rintro _ _ _ ⟨⟩ hp
  exact absurd (h.symm.trans hp) Bool.false_ne_true

theorem scanRegularString_plainly {s : XmlAwareLexer} {m : LexMode} {k : Nat}
    (hret : s.stringReturn.getD s.mode = m) (quote : UInt8) (start : Nat)
    (hs : s0.mode = m ∧ s0.stringReturn = none ∧
      { s with mode := m, stringReturn := none } = s0.advance k) :
    Plainly (F := F) m s0 (s.scanRegularString quote start) := by
  intro lo tok hi hok _
  rw [XmlAwareLexer.scanRegularString] at hok ⊢
  split at hok
  · cases hok
  · refine ⟨k + (stringBody quote s.rest).2, ?_⟩
    rw [← XmlAwareLexer.advance_advance, ← hs.2.2, hret]
    rfl

theorem scanChar_moves (s : XmlAwareLexer) (k start : Nat) :
    Moves (F := F) s ((s.advance k).scanChar start) := by
  rw [XmlAwareLexer.scanChar]
  split
  · exact ⟨k, rfl⟩
  · split_ifs
    · exact ⟨k + 2, XmlAwareLexer.advance_advance s k 2⟩
    · exact ⟨k + 1, XmlAwareLexer.advance_advance s k 1⟩

theorem scanNumber_moves [F64 F] (s : XmlAwareLexer) (start : Nat) :
    Moves (F := F) s (s.scanNumber start) := by
  rw [XmlAwareLexer.scanNumber]
  simp only
  split_ifs <;> exact ⟨_, rfl⟩

theorem scanIdent_moves (s : XmlAwareLexer) (start : Nat) :
    Moves (F := F) s (s.scanIdent start) := by
  rw [XmlAwareLexer.scanIdent]
  simp only
  split_ifs <;> exact ⟨_, rfl⟩

theorem scanAtInferencePath_moves {s : XmlAwareLexer} {out : LexResult F × XmlAwareLexer}
    (h : s.scanAtInferencePath start = some out) : Moves s out := by
  rw [XmlAwareLexer.scanAtInferencePath] at h
  simp only at h
  by_cases hstart : (s.at (atLength s.rest)).any isIdentStart
  · rw [if_pos hstart] at h
    split at h
    · cases h
    · cases h
      exact ⟨_, rfl⟩
  · rw [if_neg hstart] at h
    cases h

theorem scanPunctuation_moves (s : XmlAwareLexer) (b : UInt8) (start : Nat) :
    Moves (F := F) s (s.scanPunctuation b start) := by
  rw [XmlAwareLexer.scanPunctuation]
  split
  · exact ⟨_, rfl⟩
  · by_cases hb : b = '\x60'.toUInt8
    · rw [if_pos hb]
      exact ⟨_, rfl⟩
    · rw [if_neg hb]
      exact ⟨_, rfl⟩

theorem tryMultiCharOp_moves {s s' : XmlAwareLexer} {t : Token F}
    (h : s.tryMultiCharOp = some (t, s')) : ∃ k, s' = s.advance k := by
  rw [XmlAwareLexer.tryMultiCharOp] at h
  split at h
  · cases h
    exact ⟨_, rfl⟩
  · cases h

theorem xmlStart_plainly {s : XmlAwareLexer} {out : LexResult F × XmlAwareLexer}
    (h : s.xmlStart start = some out) : Plainly .regular s out := by
  rw [XmlAwareLexer.xmlStart] at h
  simp only at h
  split_ifs at h
  · cases h
    exact Moves.plainly ⟨_, rfl⟩ _
  · cases h
    exact plainly_bracket rfl _ _ _ _

theorem regularToken_plainly [F64 F] {s : XmlAwareLexer} (hm : s.mode = .regular)
    (hret : s.stringReturn = none) (b : UInt8) :
    Plainly (F := F) .regular s (s.regularToken b) := by
  rw [XmlAwareLexer.regularToken]
  by_cases hquote : b = '\x22'.toUInt8 ∨ b = '\x27'.toUInt8
  · rw [if_pos hquote]
    refine scanRegularString_plainly (k := 1) ?_ b s.pos ⟨hm, hret, ?_⟩
    · rw [XmlAwareLexer.advance, hret]
      exact hm
    · rw [XmlAwareLexer.advance, hm, hret]
  rw [if_neg hquote]
  by_cases hchar : b = '#'.toUInt8 ∧ s.at 1 = some '\x22'.toUInt8
  · rw [if_pos hchar]
    exact (scanChar_moves s 2 s.pos).plainly _
  rw [if_neg hchar]
  split
  · rename_i r hstart
    split_ifs at hstart
    · exact xmlStart_plainly hstart
  split
  · rename_i t s' hop
    exact Moves.plainly (tryMultiCharOp_moves hop) _
  split_ifs
  · exact plainly_bracket rfl _ _ _ _
  · exact plainly_bracket rfl _ _ _ _
  · exact Moves.plainly ⟨_, rfl⟩ _
  · exact plainly_bracket rfl _ _ _ _
  · exact plainly_bracket rfl _ _ _ _
  · exact (scanNumber_moves s s.pos).plainly _
  · exact (scanIdent_moves s s.pos).plainly _
  · cases hpath : s.scanAtInferencePath (F := F) s.pos with
    | none => exact Moves.plainly ⟨_, rfl⟩ _
    | some out => exact (scanAtInferencePath_moves hpath).plainly _
  · exact (scanPunctuation_moves s b s.pos).plainly _

theorem xmlToken_plainly (s : XmlAwareLexer) (b : UInt8) :
    Plainly (F := F) .xml s (s.xmlToken b) := by
  rw [XmlAwareLexer.xmlToken]
  by_cases hnl : b = '\n'.toUInt8
  · rw [if_pos hnl]
    exact Moves.plainly ⟨_, rfl⟩ _
  rw [if_neg hnl]
  by_cases hlt : b = '<'.toUInt8
  · rw [if_pos hlt]
    cases hend : s.xmlEndTag (F := F) s.pos with
    | some out =>
      rw [XmlAwareLexer.xmlEndTag] at hend
      simp only at hend
      split at hend
      · cases hend
        exact plainly_bracket rfl _ _ _ _
      · cases hend
    | none =>
    cases hbegin : s.xmlBeginTag (F := F) s.pos with
    | some out =>
      rw [XmlAwareLexer.xmlBeginTag] at hbegin
      simp only at hbegin
      split_ifs at hbegin
      cases hbegin
      exact plainly_bracket rfl _ _ _ _
    | none => exact Moves.plainly ⟨_, rfl⟩ _
  rw [if_neg hlt]
  split_ifs
  · exact plainly_bracket rfl _ _ _ _
  · exact Moves.plainly ⟨_, rfl⟩ _
  simp only
  split
  · exact Moves.plainly ⟨_, rfl⟩ _
  · exact Moves.plainly ⟨_, rfl⟩ _

theorem xmlTagToken_plainly [F64 F] {s : XmlAwareLexer} (hm : s.mode = .xmlTag)
    (hret : s.stringReturn = none) (b : UInt8) :
    Plainly (F := F) .xmlTag s (s.xmlTagToken b) := by
  rw [XmlAwareLexer.xmlTagToken]
  by_cases hgt : b = '>'.toUInt8
  · rw [if_pos hgt]
    exact plainly_bracket rfl _ _ _ _
  rw [if_neg hgt]
  split_ifs
  · exact plainly_bracket rfl _ _ _ _
  · let s1 : XmlAwareLexer := { s.advance 1 with stringReturn := some .xmlTag }
    refine scanRegularString_plainly (s := s1) (k := 1) rfl b s.pos ⟨hm, hret, ?_⟩
    simp only [s1, XmlAwareLexer.advance, hm, hret, Option.getD_some]
  · exact plainly_bracket rfl _ _ _ _
  · exact plainly_bracket rfl _ _ _ _
  · exact plainly_bracket rfl _ _ _ _
  · exact Moves.plainly ⟨_, rfl⟩ _
  · exact (scanNumber_moves s s.pos).plainly _
  · exact Moves.plainly ⟨_, rfl⟩ _
  · exact Moves.plainly ⟨_, rfl⟩ _

theorem token_plainly [F64 F] {s : XmlAwareLexer} (hret : s.stringReturn = none) (b : UInt8) :
    Plainly (F := F) s.mode s (s.mode.token s b) := by
  cases hm : s.mode with
  | regular => exact regularToken_plainly hm hret b
  | xml => exact xmlToken_plainly s b
  | xmlTag => exact xmlTagToken_plainly hm hret b

/-- A lexeme is read in one step that only moves the lexer. -/
theorem lexeme_step [F64 F] {s : XmlAwareLexer} (hret : s.stringReturn = none)
    (hallow : s.allowXmlMarkup = true) (h : Lexeme F s.mode t u) (hr : s.rest = t ++ u) :
    ∃ item, s.step F = some (item, s.advance t.length) := by
  obtain ⟨item, s', hstep, hpos, hitem⟩ := h.2 s rfl hallow hr
  have hmoves : ∃ k, s' = s.advance k := by
    have hs := hstep
    rw [XmlAwareLexer.step] at hs
    split at hs
    · cases hs
    · rename_i b bs hb
      split at hs
      · cases hs
        exact ⟨_, rfl⟩
      · cases hs
        obtain ⟨tok, hok, hplain⟩ := hitem _ rfl
        exact token_plainly hret b _ _ _ hok hplain
  obtain ⟨k, rfl⟩ := hmoves
  rw [XmlAwareLexer.advance_pos] at hpos
  have hk : k = t.length := by omega
  exact ⟨item, by rw [hstep, hk]⟩

-- ---------------------------------------------------------------------------
-- Brackets of code
-- ---------------------------------------------------------------------------

theorem step_token [F64 F] {s : XmlAwareLexer} (hr : s.rest = b :: bs)
    (hskip : s.mode.skip (b :: bs) = none) :
    ∃ item, s.step F = some (item, (s.mode.token (F := F) s b).2) := by
  rw [XmlAwareLexer.step, hr]
  simp only [hskip]
  exact ⟨_, rfl⟩

def IsBracket (b : UInt8) : Prop := b = lbrace ∨ b = rbrace ∨ b = lparen ∨ b = rparen

theorem operators_no_bracket :
    ∀ op ∈ operators (F := F), ∃ x more, bytes op.1 = x :: more ∧ ¬ IsBracket x := by
  simp only [operators, List.forall_mem_cons, IsBracket]
  refine ⟨?_, ?_, ?_, ?_, ?_, ?_, ?_, ?_, ?_, ?_, ?_, ?_, ?_, ?_, ?_, ?_, ?_, ?_, ?_, by simp⟩
  all_goals exact ⟨_, _, rfl, by decide⟩

theorem tryMultiCharOp_bracket {s : XmlAwareLexer} (hr : s.rest = b :: bs) (hb : IsBracket b) :
    s.tryMultiCharOp (F := F) = none := by
  have hnone : operators.find?
      (fun op : String × Token F => (bytes op.1).isPrefixOf s.rest) = none := by
    rw [List.find?_eq_none]
    intro op hop hpre
    obtain ⟨x, more, hbytes, hx⟩ := operators_no_bracket op hop
    obtain ⟨rest, hrest⟩ := List.isPrefixOf_iff_prefix.1 hpre
    rw [hbytes, hr] at hrest
    obtain ⟨rfl, -⟩ := List.cons.inj hrest
    exact hx hb
  rw [XmlAwareLexer.tryMultiCharOp, hnone]

/-- On a bracket the earlier tests of the scanner fail. -/
theorem regularToken_bracket [F64 F] {s : XmlAwareLexer} (hr : s.rest = b :: bs) (hb : IsBracket b) :
    (s.regularToken (F := F) b).2 =
      if b = lbrace then (s.advance 1).deeper
      else if b = rbrace then (s.advance 1).shallower
      else if b = lparen then
        if s.at 1 = some rparen then s.advance 2 else (s.advance 1).deeper
      else (s.advance 1).shallower := by
  have hlt : ¬ (b = '<'.toUInt8 ∧ s.allowXmlMarkup = true) := by
    rintro ⟨rfl, -⟩
    exact absurd hb (by unfold IsBracket; decide)
  have hquote : ¬ (b = '\x22'.toUInt8 ∨ b = '\x27'.toUInt8) := by
    rintro (rfl | rfl)
    · exact absurd hb (by unfold IsBracket; decide)
    · exact absurd hb (by unfold IsBracket; decide)
  have hhash : ¬ (b = '#'.toUInt8 ∧ s.at 1 = some '\x22'.toUInt8) := by
    rintro ⟨rfl, -⟩
    exact absurd hb (by unfold IsBracket; decide)
  rw [XmlAwareLexer.regularToken, if_neg hquote, if_neg hhash, if_neg hlt,
    tryMultiCharOp_bracket hr hb]
  obtain rfl | rfl | rfl | rfl := hb
  · rfl
  · rfl
  · change (if s.at 1 = some rparen then
        ((.ok (s.pos, .unit, s.pos + 2) : LexResult F), s.advance 2)
      else (.ok (s.pos, .lparen, s.pos + 1), (s.advance 1).deeper)).2 =
      if s.at 1 = some rparen then s.advance 2 else (s.advance 1).deeper
    split_ifs <;> rfl
  · rfl

theorem skipCode_bracket {b : UInt8} (hb : IsBracket b)
    (h : b = lparen → u.head? ≠ some '*'.toUInt8) : skipCode (b :: u) = none := by
  have hblank : isBlank b = false := by
    obtain rfl | rfl | rfl | rfl := hb <;> decide
  rw [skipCode, hblank, if_neg Bool.false_ne_true, if_neg fun ho => h ho.1 ho.2]

/-- A bracket in code: it only counts. -/
theorem step_bracket [F64 F] {s : XmlAwareLexer} (hm : s.mode = .regular) (hr : s.rest = b :: u)
    (hb : IsBracket b) (h : b = lparen → OpensParens u) :
    ∃ item, s.step F = some (item,
      if b = lbrace ∨ b = lparen then (s.advance 1).deeper else (s.advance 1).shallower) := by
  have hskip : s.mode.skip (b :: u) = none := by
    rw [hm]
    exact skipCode_bracket hb fun hp => (h hp).1
  obtain ⟨item, hstep⟩ := step_token (F := F) hr hskip
  refine ⟨item, ?_⟩
  rw [hstep, hm]
  have hat : b = lparen → s.at 1 ≠ some rparen := by
    intro hp
    rw [XmlAwareLexer.at, hr]
    have := (h hp).2
    rwa [List.head?_eq_getElem?] at this
  refine congrArg (fun s' => some (item, s')) ((regularToken_bracket hr hb).trans ?_)
  obtain rfl | rfl | rfl | rfl := hb
  · rfl
  · rfl
  · rw [if_neg (by decide), if_neg (by decide), if_pos rfl, if_neg (hat rfl), if_pos (.inr rfl)]
  · rfl

-- ---------------------------------------------------------------------------
-- Names of tags
-- ---------------------------------------------------------------------------

theorem isXmlIdByte_toUInt8 {c : Char} (h : c.val ≤ 127) :
    isXmlIdByte c.toUInt8 = true ↔ c.isAlphanum ∨ c = '_' ∨ c = '-' := by
  have hchar : ∀ d : Char, d.val ≤ 127 → (c.toUInt8 = d.toUInt8 ↔ c = d) := by
    refine fun d hd => ⟨fun he => ?_, fun he => by rw [he]⟩
    rw [← ofUInt8_toUInt8 h, he, ofUInt8_toUInt8 hd]
  simp only [isXmlIdByte, ofUInt8_toUInt8 h, Bool.or_eq_true, beq_iff_eq]
  rw [hchar '_' (by decide), hchar '-' (by decide), or_assoc]

theorem alphanum_ascii {c : Char} (h : c.isAlphanum) : c.val ≤ 127 := by
  rw [Text.isAlphanum_iff] at h
  rw [UInt32.le_iff_toNat_le]
  change c.toNat ≤ 127
  omega

theorem idChar_ascii {c : Char} (h : c.isAlphanum ∨ c = '_' ∨ c = '-') : c.val ≤ 127 := by
  obtain h | rfl | rfl := h
  · exact alphanum_ascii h
  · decide
  · decide

/-- The name of a tag is read up to what follows it. -/
theorem scanXmlId_name (h : IsTagName name u) :
    ∃ b bs, Utf8.encode name = b :: bs ∧ isAsciiAlphabetic b = true ∧
      scanXmlId (Utf8.encode name ++ u) = (Utf8.encode name).length := by
  obtain ⟨⟨c, cs, rfl, hc, hcs⟩, hu⟩ := h
  have hca : c.val ≤ 127 := alphanum_ascii (by rw [Char.isAlphanum, hc]; rfl)
  have hcsa : ∀ d ∈ cs, d.val ≤ 127 := fun d hd => idChar_ascii (hcs d hd)
  have halpha : isAsciiAlphabetic c.toUInt8 = true := by
    rw [isAsciiAlphabetic, ofUInt8_toUInt8 hca]
    exact hc
  have hall : ∀ b ∈ Utf8.encode cs, isXmlIdByte b := by
    intro b hb
    rw [Utf8.encode_of_ascii hcsa] at hb
    obtain ⟨d, hd, rfl⟩ := List.mem_map.1 hb
    exact (isXmlIdByte_toUInt8 (hcsa d hd)).2 (hcs d hd)
  have htail : u.takeWhile isXmlIdByte = [] := by
    cases u with
    | nil => rfl
    | cons b u => rw [List.takeWhile_cons, if_neg (hu b rfl)]
  rw [Utf8.encode_cons, Utf8.encode_ascii c hca]
  refine ⟨_, _, rfl, halpha, ?_⟩
  rw [List.singleton_append, List.cons_append, scanXmlId, if_pos halpha,
    List.takeWhile_append_of_pos hall, htail, List.append_nil, List.length_cons]
  omega

theorem alphabetic_ne {b : UInt8} (h : isAsciiAlphabetic b = true) (c : Char)
    (hc : isAsciiAlphabetic c.toUInt8 = false) : b ≠ c.toUInt8 := by
  rintro rfl
  exact Bool.false_ne_true (hc.symm.trans h)

theorem xmlName_isTagName (h : ∀ b ∈ u.head?, ¬ isXmlIdByte b) : IsTagName xmlName u :=
  ⟨⟨'x', ['m', 'l'], rfl, by decide, List.all_iff_forall_prop.1 (by decide)⟩, h⟩

theorem gt_not_id (u : List UInt8) : ∀ b ∈ ('>'.toUInt8 :: u).head?, ¬ isXmlIdByte b := by
  rintro b ⟨⟩
  decide

/-- The name before `>` in a closing tag. -/
theorem IsTagName.close (h : IsTagName name u) (v : List UInt8) :
    IsTagName name ('>'.toUInt8 :: v) := ⟨h.1, gt_not_id v⟩

-- ---------------------------------------------------------------------------
-- Tags
-- ---------------------------------------------------------------------------

/-- `<xml>` in code: a new count begins. -/
theorem step_fragment [F64 F] {s : XmlAwareLexer} (hm : s.mode = .regular)
    (hallow : s.allowXmlMarkup = true) (hr : s.rest = openTag xmlName ++ '>'.toUInt8 :: u) :
    ∃ item, s.step F = some (item, { s.advance 5 with mode := .xml, xmlNesting := 0 }) := by
  have hbytes : openTag xmlName ++ '>'.toUInt8 :: u =
      '<'.toUInt8 :: (Utf8.encode xmlName ++ '>'.toUInt8 :: u) := rfl
  rw [hbytes] at hr
  have hskip : s.mode.skip ('<'.toUInt8 :: (Utf8.encode xmlName ++ '>'.toUInt8 :: u)) = none := by
    rw [hm, LexMode.skip, skipCode, if_neg (by decide), if_neg fun h => absurd h.1 (by decide)]
    decide
  obtain ⟨-, -, -, -, hscan⟩ := scanXmlId_name (xmlName_isTagName (gt_not_id u))
  have hlen : (Utf8.encode xmlName).length = 3 := by decide
  rw [hlen] at hscan
  have hstart : s.xmlStart (F := F) s.pos =
      some (.ok (s.pos, .beginTag (textOr [] ((s.rest.drop 1).take 3)), s.pos + 5),
        { s.advance 5 with mode := .xml, xmlNesting := 0 }) := by
    rw [XmlAwareLexer.xmlStart, hr]
    simp only [List.drop_succ_cons, List.drop_zero, hscan]
    rw [if_neg (by decide), if_neg, if_pos]
    · rw [XmlAwareLexer.at, hr]
      rfl
    · rw [XmlAwareLexer.at, hr]
      rintro ⟨h, -⟩
      have hgt : some '>'.toUInt8 = some '/'.toUInt8 := h
      exact absurd (Option.some.inj hgt) (by decide)
  obtain ⟨item, hstep⟩ := step_token (F := F) hr hskip
  refine ⟨item, hstep.trans ?_⟩
  rw [hm, LexMode.token, XmlAwareLexer.regularToken, if_neg (by decide),
    if_neg fun h => absurd h.1 (by decide), if_pos ⟨rfl, hallow⟩, hstart]

theorem skipMarkup_other {b : UInt8} (hlp : b ≠ lparen) (hlt : b ≠ '<'.toUInt8) (u : List UInt8) :
    skipMarkup (b :: u) = none := by
  have hb : bytes "<!--" = '<'.toUInt8 :: bytes "!--" := rfl
  have hpre : (bytes "<!--").isPrefixOf (b :: u) = false := by
    rw [hb, List.isPrefixOf, beq_eq_false_iff_ne.2 (Ne.symm hlt), Bool.false_and]
  rw [skipMarkup, if_neg fun h => hlp h.1, hpre, if_neg Bool.false_ne_true]

theorem skipMarkup_tag {b : UInt8} (hb : b ≠ '!'.toUInt8) (u : List UInt8) :
    skipMarkup ('<'.toUInt8 :: b :: u) = none := by
  have hbytes : bytes "<!--" = '<'.toUInt8 :: '!'.toUInt8 :: bytes "--" := rfl
  have hpre : (bytes "<!--").isPrefixOf ('<'.toUInt8 :: b :: u) = false := by
    rw [hbytes, List.isPrefixOf, List.isPrefixOf, beq_eq_false_iff_ne.2 (Ne.symm hb),
      Bool.false_and, Bool.and_false]
  rw [skipMarkup, if_neg fun h => absurd h.1 (by decide), hpre, if_neg Bool.false_ne_true]

/-- `{` in markup. -/
theorem step_splice [F64 F] {s : XmlAwareLexer} (hm : s.mode = .xml) (hr : s.rest = lbrace :: u) :
    ∃ item, s.step F = some (item,
      { s.advance 1 with braceStack := (.xml, 1) :: s.braceStack, mode := .regular }) := by
  have hskip : s.mode.skip (lbrace :: u) = none := by
    rw [hm]
    exact skipMarkup_other (b := lbrace) (by decide) (by decide) u
  obtain ⟨item, hstep⟩ := step_token (F := F) hr hskip
  refine ⟨item, hstep.trans ?_⟩
  rw [hm]
  rfl

/-- `<name` in markup. -/
theorem step_openTag [F64 F] {s : XmlAwareLexer} (hm : s.mode = .xml) (hn : IsTagName name u)
    (hr : s.rest = openTag name ++ u) :
    ∃ item, s.step F = some (item, { s.advance (openTag name).length with
      mode := .xmlTag, pendingXmlOpen := name = xmlName || s.pendingXmlOpen }) := by
  obtain ⟨b, bs, hb, halpha, hscan⟩ := scanXmlId_name hn
  have hr' : s.rest = '<'.toUInt8 :: (Utf8.encode name ++ u) := hr
  have hskip : s.mode.skip ('<'.toUInt8 :: (Utf8.encode name ++ u)) = none := by
    rw [hm, hb]
    exact skipMarkup_tag (alphabetic_ne halpha '!' (by decide)) _
  have hend : s.xmlEndTag (F := F) s.pos = none := by
    rw [XmlAwareLexer.xmlEndTag]
    simp only
    rw [if_neg]
    rintro ⟨h, -⟩
    rw [XmlAwareLexer.at, hr', hb] at h
    exact alphabetic_ne halpha '/' (by decide) (Option.some.inj h)
  have hlen : (Utf8.encode name).length ≠ 0 := by rw [hb]; simp
  have hbegin : s.xmlBeginTag (F := F) s.pos =
      some (.ok (s.pos, .beginTag name, s.pos + (1 + (Utf8.encode name).length)),
        { s.advance (1 + (Utf8.encode name).length) with
          mode := .xmlTag, pendingXmlOpen := name = xmlName || s.pendingXmlOpen }) := by
    rw [XmlAwareLexer.xmlBeginTag, hr']
    simp only [List.drop_succ_cons, List.drop_zero, hscan, List.take_left, textOr_encode]
    rw [if_pos hlen, beq_eq_decide]
    rfl
  obtain ⟨item, hstep⟩ := step_token (F := F) hr' hskip
  refine ⟨item, hstep.trans ?_⟩
  rw [hm, LexMode.token, XmlAwareLexer.xmlToken, if_neg (by decide), if_pos rfl, hend, hbegin,
    openTag, List.length_cons, Nat.add_comm 1]
  rfl

/-- `</name>` in markup: the end of a nested element, of a fragment or of neither. -/
theorem step_closeTag [F64 F] {s : XmlAwareLexer} (hm : s.mode = .xml) (hn : IsTagName name v)
    (hr : s.rest = closeTag name ++ u) :
    ∃ item, s.step F = some (item,
      if name = xmlName then
        if s.xmlNesting > 0 then
          { s.advance (closeTag name).length with xmlNesting := s.xmlNesting - 1 }
        else { s.advance (closeTag name).length with mode := .regular }
      else s.advance (closeTag name).length) := by
  obtain ⟨b, bs, hb, -, hscan⟩ := scanXmlId_name (hn.close u)
  have hr' : s.rest = '<'.toUInt8 :: '/'.toUInt8 :: (Utf8.encode name ++ '>'.toUInt8 :: u) := by
    rw [hr, closeTag, List.cons_append, List.cons_append, List.append_assoc]
    rfl
  have hskip : s.mode.skip ('<'.toUInt8 :: '/'.toUInt8 ::
      (Utf8.encode name ++ '>'.toUInt8 :: u)) = none := by
    rw [hm]
    exact skipMarkup_tag (b := '/'.toUInt8) (by decide) (Utf8.encode name ++ '>'.toUInt8 :: u)
  have hne : (Utf8.encode name).length ≠ 0 := by rw [hb]; simp
  have hlen : (closeTag name).length = 3 + (Utf8.encode name).length := by
    rw [closeTag, List.length_cons, List.length_cons, List.length_append, List.length_singleton]
    omega
  have hgt : s.at (2 + (Utf8.encode name).length) = some '>'.toUInt8 := by
    rw [XmlAwareLexer.at, hr', Nat.add_comm, List.getElem?_cons_succ, List.getElem?_cons_succ,
      List.getElem?_append_right (Nat.le_refl _), Nat.sub_self]
    rfl
  have hslash : s.at 1 = some '/'.toUInt8 := by rw [XmlAwareLexer.at, hr']; rfl
  have hend : s.xmlEndTag (F := F) s.pos =
      some (.ok (s.pos, .endTag name, s.pos + (closeTag name).length),
        if name = xmlName then
          if s.xmlNesting > 0 then
            { s.advance (closeTag name).length with xmlNesting := s.xmlNesting - 1 }
          else { s.advance (closeTag name).length with mode := .regular }
        else s.advance (closeTag name).length) := by
    rw [XmlAwareLexer.xmlEndTag, hr', hlen]
    simp only [List.drop_succ_cons, List.drop_zero, hscan, List.take_left, textOr_encode]
    rw [if_pos ⟨hslash, hne, hgt⟩]
    rfl
  obtain ⟨item, hstep⟩ := step_token (F := F) hr' hskip
  refine ⟨item, hstep.trans ?_⟩
  rw [hm, LexMode.token, XmlAwareLexer.xmlToken, if_neg (by decide), if_pos rfl, hend]
  rfl

/-- The brackets inside a tag. -/
theorem step_inTag [F64 F] {s : XmlAwareLexer} (hm : s.mode = .xmlTag) (hr : s.rest = b :: u)
    (hskip : skipCode (b :: u) = none) :
    ∃ item, s.step F = some (item, (s.xmlTagToken (F := F) b).2) := by
  have hskip' : s.mode.skip (b :: u) = none := by
    rw [hm]
    exact hskip
  obtain ⟨item, hstep⟩ := step_token (F := F) hr hskip'
  rw [hm] at hstep
  exact ⟨item, hstep⟩

theorem step_gt [F64 F] {s : XmlAwareLexer} (hm : s.mode = .xmlTag) (hr : s.rest = '>'.toUInt8 :: u) :
    ∃ item, s.step F = some (item, { s.advance 1 with
      mode := .xml
      xmlNesting := if s.pendingXmlOpen then s.xmlNesting + 1 else s.xmlNesting
      pendingXmlOpen := false }) := by
  refine step_inTag hm hr ?_
  rw [skipCode, if_neg (by decide), if_neg fun h => absurd h.1 (by decide)]

theorem step_slash [F64 F] {s : XmlAwareLexer} (hm : s.mode = .xmlTag)
    (hr : s.rest = '/'.toUInt8 :: u) :
    ∃ item, s.step F = some (item, { s.advance 1 with pendingXmlOpen := false }) := by
  refine step_inTag hm hr ?_
  rw [skipCode, if_neg (by decide), if_neg fun h => absurd h.1 (by decide)]

/-- `{`, `(` and even `()` in a tag enter code. -/
theorem step_value [F64 F] {s : XmlAwareLexer} (hm : s.mode = .xmlTag) (hr : s.rest = b :: u)
    (hb : b = lbrace ∨ b = lparen ∧ u.head? ≠ some '*'.toUInt8) :
    ∃ item, s.step F = some (item,
      { s.advance (if b = lparen ∧ u.head? = some rparen then 2 else 1) with
        braceStack := (.xmlTag, 1) :: s.braceStack, mode := .regular }) := by
  have hskip : skipCode (b :: u) = none := by
    obtain rfl | ⟨rfl, hstar⟩ := hb
    · exact skipCode_bracket (.inl rfl) fun h => absurd h (by decide)
    · exact skipCode_bracket (.inr (.inr (.inl rfl))) fun _ => hstar
  obtain ⟨item, hstep⟩ := step_inTag (F := F) hm hr hskip
  refine ⟨item, hstep.trans ?_⟩
  have hat : s.at 1 = u.head? := by
    rw [XmlAwareLexer.at, hr, List.getElem?_cons_succ, List.head?_eq_getElem?]
  obtain rfl | ⟨rfl, hstar⟩ := hb
  · rw [if_neg fun h => absurd h.1 (by decide)]
    rfl
  · have htoken : (s.xmlTagToken (F := F) lparen).2 =
        if s.at 1 = some rparen then
          { s.advance 2 with braceStack := (.xmlTag, 1) :: s.braceStack, mode := .regular }
        else { s.advance 1 with braceStack := (.xmlTag, 1) :: s.braceStack, mode := .regular } := by
      let inner : XmlAwareLexer → XmlAwareLexer := fun s' =>
        { s' with braceStack := (.xmlTag, 1) :: s.braceStack, mode := .regular }
      change (if s.at 1 = some rparen then
          ((.ok (s.pos, .unit, s.pos + 2) : LexResult F), inner (s.advance 2))
        else (.ok (s.pos, .lparen, s.pos + 1), inner (s.advance 1))).2 = _
      split_ifs <;> rfl
    rw [htoken, hat]
    by_cases hu : u.head? = some rparen
    · rw [if_pos hu, if_pos ⟨rfl, hu⟩]
    · rw [if_neg hu, if_neg fun h => hu h.2]

end UrWeb.Parse
